import Utu.Hub.Calm

/-!
# Whether the tasks of a connection go on

The writing task sleeps in `MsgQueue_wait`, and both tasks wait at the lock. A
message that comes wakes the writing task up, and the lock goes over to the
task that waits for it. There is one way for the two to get stuck: when a
message cannot be sent, the writing task leaves its loop with the lock in its
hands, and the reading task that waits for it waits for good.
-/

namespace Utu.Hub.Connection
set_option autoImplicit false

variable {D : Type} {c c' : Connection D} {q : MsgQueue D} {l : List (Message D)} {e : Event D}

/-! ## The lock and the sleeper -/

/-- The reading task is between `qlock` and `qunlock`. -/
def ReaderIn (i : Incoming) : Prop := i = .closing .msgRecv false

/-- The writing task is between `qlock` and `qunlock`. -/
def WriterIn (o : Outgoing) : Prop := o = .sending ∨ o = .closing .msgQueued false

/-- Who holds the lock. A task that waits for it is not forgotten, and what the writing task holds it may
have taken with it. -/
def Held (i : Incoming) (o : Outgoing) : Option Side → Prop
  | none => i ≠ .locking ∧ ¬ ReaderIn i ∧ o ≠ .locking ∧ ¬ WriterIn o
  | some .incoming => (i = .locking ∨ ReaderIn i) ∧ ¬ WriterIn o
  | some .outgoing => (o.holding = true ∨ o.closes = true ∨ o = .ended) ∧ ¬ ReaderIn i

/-- The writing task, if it sleeps, does so in front of an empty queue of a member that is there. -/
def SleepsWell (c : Connection D) : Prop :=
  c.outgoing = .waiting false → ∃ q, c.member = some q ∧ q.dead = false ∧ q.Holds []

structure Locks (c : Connection D) : Prop where
  held : Held c.incoming c.outgoing c.lock
  asleep : c.SleepsWell

section Held
variable {i i' : Incoming} {o o' : Outgoing} {lock : Option Side}

theorem Held.cases (h : Held i o lock) :
    (lock = none ∧ Held i o none) ∨ (lock = some .incoming ∧ Held i o (some .incoming)) ∨
      (lock = some .outgoing ∧ Held i o (some .outgoing)) := by
  cases lock with
  | none => exact .inl ⟨rfl, h⟩
  | some side =>
    cases side with
    | incoming => exact .inr (.inl ⟨rfl, h⟩)
    | outgoing => exact .inr (.inr ⟨rfl, h⟩)

theorem Held.readerIn (h : Held i o lock) (hIn : ReaderIn i) : lock = some .incoming := by
  rcases h.cases with ⟨-, hFree⟩ | ⟨hLock, -⟩ | ⟨-, hWriter⟩
  · exact absurd hIn hFree.2.1
  · exact hLock
  · exact absurd hIn hWriter.2

theorem Held.writerIn (h : Held i o lock) (hIn : WriterIn o) : lock = some .outgoing := by
  rcases h.cases with ⟨-, hFree⟩ | ⟨-, hReader⟩ | ⟨hLock, -⟩
  · exact absurd hIn hFree.2.2.2
  · exact absurd hIn hReader.2
  · exact hLock

theorem Held.read (h : Held i o lock) (hIn : i ≠ .locking ∧ ¬ ReaderIn i)
    (hNext : (i' = .locking → lock ≠ none) ∧ ¬ ReaderIn i') : Held i' o lock := by
  rcases h.cases with ⟨rfl, hFree⟩ | ⟨rfl, hReader⟩ | ⟨rfl, hWriter⟩
  · exact ⟨fun hAt => hNext.1 hAt rfl, hNext.2, hFree.2.2⟩
  · exact absurd hReader.1 (not_or.mpr hIn)
  · exact ⟨hWriter.1, hNext.2⟩

theorem Held.write (h : Held i o lock) (hOut : o'.closes = true ∨ o' = .ended) (hNot : ¬ WriterIn o') :
    Held i o' lock := by
  rcases h.cases with ⟨rfl, hFree⟩ | ⟨rfl, hReader⟩ | ⟨rfl, hWriter⟩
  · refine ⟨hFree.1, hFree.2.1, ?_, hNot⟩
    rintro rfl
    simp [Outgoing.closes] at hOut
  · exact ⟨hReader.1, hNot⟩
  · exact ⟨.inr hOut, hWriter.2⟩

theorem wake_not_asleep (o : Outgoing) : o.wake ≠ .waiting false := by cases o <;> simp [Outgoing.wake]

theorem Held.wake (h : Held i o lock) : Held i o.wake lock := by
  cases o with
  | waiting woken =>
    rcases h.cases with ⟨rfl, hFree⟩ | ⟨rfl, hReader⟩ | ⟨rfl, hWriter⟩
    · exact ⟨hFree.1, hFree.2.1, by simp [Outgoing.wake], by simp [WriterIn, Outgoing.wake]⟩
    · exact ⟨hReader.1, by simp [WriterIn, Outgoing.wake]⟩
    · simp [Held, Outgoing.holding, Outgoing.closes] at hWriter
  | _ => exact h

/-- The lock goes over to the writing task, if that waits for it. -/
theorem held_unlocked (hOut : ¬ WriterIn o) : Held .unlocked o (if o = .locking then some .outgoing else none) := by
  split
  · rename_i hAt
    rw [hAt]
    exact ⟨.inl rfl, by simp [ReaderIn]⟩
  · rename_i hNot
    exact ⟨by simp, by simp [ReaderIn], hNot, hOut⟩

theorem held_written (hIn : ¬ ReaderIn i) : Held i .unlocked (if i = .locking then some .incoming else none) := by
  split
  · rename_i hAt
    exact ⟨.inl hAt, by simp [WriterIn]⟩
  · rename_i hNot
    exact ⟨hNot, hIn, by simp, by simp [WriterIn]⟩

end Held

theorem Locks.readUnlock (hLock : c.lock = some .incoming) (hOut : ¬ WriterIn c.outgoing)
    (hAsleep : c.SleepsWell) : Locks c.readUnlock := by
  rw [Connection.readUnlock, unlock, hLock]
  exact ⟨held_unlocked hOut, hAsleep⟩

theorem Locks.writeUnlock (hHeld : Held c.incoming c.outgoing c.lock) (hLock : c.lock = some .outgoing) :
    Locks c.writeUnlock := by
  rw [hLock] at hHeld
  rw [Connection.writeUnlock, unlock, hLock]
  exact ⟨held_written hHeld.2, by simp [SleepsWell]⟩

/-! ## Steps -/

theorem FirstStep.locks (hStep : FirstStep e c') : Locks c' := by
  cases hStep <;> constructor <;> simp [opened, Held, ReaderIn, WriterIn, SleepsWell]

theorem OpeningStep.locks (h : Opening c) (hStep : OpeningStep c e c') : Locks c' := by
  obtain ⟨confirm, hYoung⟩ := h.young
  cases hStep <;> constructor <;>
    simp [hYoung.incoming, hYoung.outgoing, hYoung.lock, Held, ReaderIn, WriterIn, SleepsWell]

theorem Holding.not_writerIn {p : Packet D} (h : Holding c p c') (hHeld : Held c.incoming c.outgoing c.lock) :
    ¬ WriterIn c.outgoing := by
  cases h with
  | handed _ hLock =>
    rw [hLock] at hHeld
    exact hHeld.2
  | free _ hLock =>
    rw [hLock] at hHeld
    exact hHeld.2.2.2

theorem Taking.not_readerIn {m : Message D} (h : Taking c m c') (hHeld : Held c.incoming c.outgoing c.lock) :
    ¬ ReaderIn c.incoming := by
  cases h with
  | handed _ hLock =>
    rw [hLock] at hHeld
    exact hHeld.2
  | free _ hLock =>
    rw [hLock] at hHeld
    exact hHeld.2.1

theorem LiveStep.locks (hLive : Live c q l) (h : Locks c) (hStep : LiveStep c q l e c') : Locks c' := by
  obtain ⟨hHeld, hAsleep⟩ := h
  cases hStep with
  | hangUp io hIn hBody =>
    refine ⟨hHeld.wake.read ?_ ?_, fun hSleeps => absurd hSleeps (wake_not_asleep _)⟩
    · simp [hIn, ReaderIn]
    · simp [ReaderIn]
  | await io hIn hBody hLock =>
    exact ⟨hHeld.read (by simp [hIn, ReaderIn]) ⟨fun _ => hLock, by simp [ReaderIn]⟩, hAsleep⟩
  | received io hHold hCs hReceived =>
    have hNot := hHold.not_writerIn hHeld
    rw [hReceived.fields.2, hHold.fields]
    exact ⟨held_unlocked hNot, hAsleep⟩
  | tornDown io hHold hCs =>
    have hNot := hHold.not_writerIn hHeld
    rw [hHold.fields]
    refine ⟨⟨.inr rfl, ?_⟩, fun hSleeps => absurd hSleeps (wake_not_asleep _)⟩
    rw [WriterIn]
    simp only [suspend, wake_sending, wake_closing]
    exact hNot
  | reread io hIn => exact ⟨hHeld.read (by simp [hIn, ReaderIn]) (by simp [ReaderIn]), hAsleep⟩
  | sleep io hOut hEmpty =>
    refine ⟨?_, fun _ => ⟨q, hLive.member, hLive.alive, hEmpty ▸ hLive.holds⟩⟩
    have hNot : c.lock ≠ some .outgoing := by
      intro hLock
      have hHolding := hLive.lockOutgoing hLock
      rcases hOut with hOut | hOut <;> simp [hOut, Outgoing.holding] at hHolding
    rcases hHeld.cases with ⟨hLock, hFree⟩ | ⟨hLock, hReader⟩ | ⟨hLock, -⟩
    · rw [hLock]
      exact ⟨hFree.1, hFree.2.1, by simp, by simp [WriterIn]⟩
    · rw [hLock]
      exact ⟨hReader.1, by simp [WriterIn]⟩
    · exact absurd hLock hNot
  | starve io hOut hEmpty => exact ⟨hHeld.write (.inl rfl) (by simp [WriterIn]), by simp [SleepsWell]⟩
  | peek io hOut hFirst hLock =>
    refine ⟨?_, by simp [SleepsWell]⟩
    rcases hHeld.cases with ⟨hFree, -⟩ | ⟨hLock, hReader⟩ | ⟨hLock, hWriter⟩
    · exact absurd hFree hLock
    · rw [hLock]
      exact ⟨hReader.1, by simp [WriterIn]⟩
    · rw [hLock]
      exact ⟨.inl rfl, hWriter.2⟩
  | send io hTake hFirst hCs =>
    have hNot := hTake.not_readerIn hHeld
    rw [hTake.fields]
    exact ⟨⟨.inl rfl, hNot⟩, by simp [SleepsWell]⟩
  | quit io hTake hFirst hCs =>
    have hNot := hTake.not_readerIn hHeld
    rw [hTake.fields]
    exact ⟨⟨.inr (.inl rfl), hNot⟩, by simp [SleepsWell]⟩
  | sent io hOut hSent hFirst hAlive hHolds =>
    rw [hLive.lockSending hOut] at hHeld
    exact ⟨held_written hHeld.2, by simp [SleepsWell]⟩
  | failed io hOut hSent v hView => exact ⟨hHeld.write (.inl rfl) (by simp [WriterIn]), by simp [SleepsWell]⟩
  | delivered m hAdd hAlive hHolds => exact ⟨hHeld.wake, fun hSleeps => absurd hSleeps (wake_not_asleep _)⟩
  | full m hFull => exact ⟨hHeld, hAsleep⟩

theorem Down.awake (hDown : Down c) (h : Locks c) : c.outgoing ≠ .waiting false := by
  intro hAsleep
  obtain ⟨q, hMember, hAlive, -⟩ := h.asleep hAsleep
  rw [(hDown.member q hMember).1] at hAlive
  cases hAlive

theorem DownStep.locks (hDown : Down c) (h : Locks c) (hStep : DownStep c e c') : Locks c' := by
  have hAwake := hDown.awake h
  obtain ⟨hHeld, hAsleep⟩ := h
  cases hStep with
  | unread io hIn =>
    rw [handled, retire_fields]
    exact ⟨hHeld.read (by simp [hIn, ReaderIn]) (by simp [ReaderIn]), hAsleep⟩
  | hangUp io hIn hBody =>
    rw [handled, retire_fields]
    exact ⟨hHeld.read (by simp [hIn, ReaderIn]) (by simp [ReaderIn]), hAsleep⟩
  | await io hIn hBody hLock =>
    exact ⟨hHeld.read (by simp [hIn, ReaderIn]) ⟨fun _ => hLock, by simp [ReaderIn]⟩, hAsleep⟩
  | msgRecv io hHold =>
    have hNot := hHold.not_writerIn hHeld
    rw [retire_fields, hHold.fields]
    exact .readUnlock rfl hNot hAsleep
  | unestablished io hIn hMember =>
    rw [handled, retire_fields]
    exact ⟨hHeld.read (by simp [hIn, ReaderIn]) (by simp [ReaderIn]), fun hSleeps => absurd hSleeps hAwake⟩
  | @tornDown io q hIn hMember =>
    have hLock := hHeld.readerIn hIn
    rw [hLock] at hHeld
    split
    · rw [retire_fields]
      exact .readUnlock hLock hHeld.2 fun hSleeps => absurd hSleeps hAwake
    · exact .readUnlock hLock hHeld.2 fun hSleeps => absurd hSleeps hAwake
  | readClosed io hIn hMember =>
    exact ⟨hHeld.read (by simp [hIn, ReaderIn]) (by simp [handled, ReaderIn]), fun hSleeps => absurd hSleeps hAwake⟩
  | refused io hIn hMember =>
    exact ⟨hHeld.read (by simp [hIn, ReaderIn]) (by simp [handled, ReaderIn]), fun hSleeps => absurd hSleeps hAwake⟩
  | ended io hOut hDone => exact ⟨hHeld.write (.inr rfl) (by simp [WriterIn]), by simp [SleepsWell]⟩
  | crashed io f hMember => exact ⟨hHeld, hAsleep⟩
  | writeClose io hOut hMember =>
    rw [retire_fields]
    exact ⟨hHeld.write (.inr rfl) (by simp [WriterIn]), by simp [SleepsWell]⟩
  | msgQueued io hOut hLock =>
    rw [retire_fields]
    exact .writeUnlock hHeld hLock
  | sent io hOut => exact .writeUnlock hHeld (hHeld.writerIn (.inl hOut))
  | sendClosed io hOut hMember hCs v => exact ⟨hHeld, fun hSleeps => absurd hSleeps hAwake⟩
  | sendDone io hOut hMember hDone => exact .writeUnlock hHeld (hHeld.writerIn (.inr hOut))
  | writeClosed io hOut hMember => exact ⟨hHeld.write (.inr rfl) (by simp [WriterIn]), by simp [SleepsWell]⟩
  | delivered m hMember hHolds hAdd hDead hHolds' =>
    exact ⟨hHeld.wake, fun hSleeps => absurd hSleeps (wake_not_asleep _)⟩
  | undelivered m => exact ⟨hHeld, hAsleep⟩
  | finish hIn => exact ⟨hHeld, hAsleep⟩

theorem locks_opened : Locks (opened : Connection D) := by
  constructor <;> simp [opened, Held, ReaderIn, WriterIn, SleepsWell]

theorem Reachable.locks (h : Reachable c) : Locks c :=
  h.invariant locks_opened (fun hStep => hStep.locks) (fun hOpening hStep _ => hStep.locks hOpening)
    (fun hLive hStep hLocks => hStep.locks hLive hLocks) fun hDown _ hStep hLocks => hStep.locks hDown hLocks

/-! ## Runs -/

/-- A writing task with something to do is ready to run: as long as it sleeps its queue is empty and its
member is there. -/
theorem no_lost_wakeup (h : Reachable c) {woken : Bool} (hOut : c.outgoing = .waiting woken)
    (hWork : ∀ q, c.member = some q → q.dead = true ∨ q.isEmpty = false) (io : Io D) :
    c.Ready (.outgoing io) := by
  rw [Ready, hOut]
  cases woken with
  | true => rfl
  | false =>
    obtain ⟨q, hMember, hAlive, hEmpty⟩ := h.locks.asleep hOut
    have hNone : q.isEmpty = true := hEmpty.isEmpty_iff.mpr rfl
    rcases hWork q hMember with hDead | hFull
    · rw [hAlive] at hDead
      cases hDead
    · rw [hNone] at hFull
      cases hFull

def Over (c : Connection D) : Prop := c.incoming = .finished ∧ (c.outgoing = .absent ∨ c.outgoing = .ended)

/-- Neither task can run, whatever the network and the library answer, and they are not through. -/
def Stuck (c : Connection D) : Prop :=
  (∀ io, ¬ c.Ready (.incoming io)) ∧ (∀ io, ¬ c.Ready (.outgoing io)) ∧ ¬ c.Over

/-- The reading task waits for a lock that the writing task took with it. -/
def Orphaned (c : Connection D) : Prop :=
  c.incoming = .locking ∧ c.lock = some .outgoing ∧ c.outgoing = .ended

def idleIo : Io D := ⟨false, false, false, false, false, ⟨none, none⟩, 0, 0, false, false⟩

theorem Stuck.incoming (h : Stuck c) :
    (c.incoming = .locking ∧ c.lock ≠ some .incoming) ∨ c.incoming = .finished := by
  have hReady := h.1 idleIo
  rw [Ready] at hReady
  split at hReady
  · simp [idleIo] at hReady
  · rename_i hIn
    exact .inl ⟨hIn, hReady⟩
  · rename_i hIn
    exact .inr hIn
  · exact absurd trivial hReady

theorem Stuck.outgoing (h : Stuck c) :
    c.outgoing = .waiting false ∨ (c.outgoing = .locking ∧ c.lock ≠ some .outgoing) ∨ c.outgoing = .absent ∨
      c.outgoing = .ended := by
  have hReady := h.2.1 idleIo
  rw [Ready] at hReady
  split at hReady
  · rename_i woken hOut
    cases woken with
    | false => exact .inl hOut
    | true => exact absurd rfl hReady
  · rename_i hOut
    exact .inr (.inl ⟨hOut, hReady⟩)
  · rename_i hOut
    exact .inr (.inr (.inl hOut))
  · rename_i hOut
    exact .inr (.inr (.inr hOut))
  · exact absurd trivial hReady

theorem Orphaned.stuck (h : Orphaned c) : Stuck c := by
  obtain ⟨hIn, hLock, hOut⟩ := h
  refine ⟨fun io => ?_, fun io => ?_, ?_⟩
  · simp [Ready, hIn, hLock]
  · simp [Ready, hOut]
  · simp [Over, hIn]

theorem Stuck.orphaned (h : Stuck c) (hHeld : Held c.incoming c.outgoing c.lock) (hIn : c.incoming = .locking)
    (hNot : c.lock ≠ some .incoming) : Orphaned c := by
  rcases hHeld.cases with ⟨-, hFree⟩ | ⟨hLock, -⟩ | ⟨hLock, hHolds, -⟩
  · exact absurd hIn hFree.1
  · exact absurd hLock hNot
  refine ⟨hIn, hLock, ?_⟩
  rcases h.outgoing with hOut | ⟨-, hOther⟩ | hOut | hOut
  · simp [hOut, Outgoing.holding, Outgoing.closes] at hHolds
  · exact absurd hLock hOther
  · simp [hOut, Outgoing.holding, Outgoing.closes] at hHolds
  · exact hOut

theorem Stuck.not_finished (h : Stuck c) (hPhase : Phase c) (hFault : c.fault = none) (hLocks : Locks c) :
    c.incoming ≠ .finished := by
  intro hIn
  rcases h.outgoing with hOut | ⟨hOut, hLock⟩ | hOut | hOut
  · cases hPhase with
    | opened hNew => rw [hNew] at hIn; cases hIn
    | opening hOpening => exact hOpening.not_pushed.2 hIn
    | live hLive => exact hLive.not_finished hIn
    | down hDown => exact hDown.awake hLocks hOut
    | crashed hCrashed => simp [hFault] at hCrashed
  · rcases hLocks.held.cases with ⟨-, hFree⟩ | ⟨-, hReader, -⟩ | ⟨hWriter, -⟩
    · exact hFree.2.2.1 hOut
    · simp [hIn, ReaderIn] at hReader
    · exact hLock hWriter
  · exact h.2.2 ⟨hIn, .inl hOut⟩
  · exact h.2.2 ⟨hIn, .inr hOut⟩

/-- An orphaned connection can only be sent messages. -/
theorem Orphaned.step (h : Orphaned c) (hStep : Step c c') : Orphaned c' := by
  obtain ⟨-, e, hReady, rfl⟩ := hStep
  obtain ⟨hIn, hOut, -⟩ := h.stuck
  cases e with
  | incoming io => exact absurd hReady (hIn io)
  | outgoing io => exact absurd hReady (hOut io)
  | deliver m =>
    obtain ⟨hIn, hLock, hOut⟩ := h
    show Orphaned (c.deliver m)
    unfold deliver
    split
    · exact ⟨hIn, hLock, hOut⟩
    · split
      · exact ⟨hIn, hLock, by rw [hOut]; rfl⟩
      · exact ⟨hIn, hLock, hOut⟩
  | finish =>
    have hFinished : c.incoming = .finished := hReady
    rw [h.1] at hFinished
    cases hFinished

/-- The tasks of a connection get stuck in one way only, and then for good. -/
theorem stuck_iff_orphaned (h : Reachable c) (hFault : c.fault = none) :
    (c.Stuck ↔ c.Orphaned) ∧ (c.Orphaned → ∀ d, Relation.ReflTransGen Step c d → d.Stuck) := by
  have hLocks := h.locks
  refine ⟨⟨fun hStuck => ?_, Orphaned.stuck⟩, fun hOrphaned d hRun => ?_⟩
  · rcases hStuck.incoming with ⟨hIn, hLock⟩ | hIn
    · exact hStuck.orphaned hLocks.held hIn hLock
    · exact absurd hIn (hStuck.not_finished h.phase hFault hLocks)
  · have hOrphaned' : Orphaned d := by
      induction hRun with
      | refl => exact hOrphaned
      | tail _ hStep ih => exact ih.step hStep
    exact hOrphaned'.stuck

/-- A message is being sent while the next packet comes in; then the sending fails. -/
def cutOff : List (Event Unit) :=
  greeting ++ [.deliver (noteOf 7), .outgoing quietIo, .incoming { quietIo with packet := packetOf 1 },
    .outgoing { quietIo with sent := false }, .outgoing quietIo]

theorem stuck_cutOff : ∃ c : Connection Unit, Reachable c ∧ c.fault = none ∧ c.Stuck := by
  have hRun : Reachable (cutOff.foldl step (opened : Connection Unit)) := Reachable.foldl .refl (by decide +kernel)
  have hFault : (cutOff.foldl step (opened : Connection Unit)).fault = none := by decide +kernel
  refine ⟨_, hRun, hFault, (stuck_iff_orphaned hRun hFault).1.mpr ?_⟩
  rw [Orphaned]
  decide +kernel

/-- A message comes for a writing task that sleeps. -/
def roused : List (Event Unit) := greeting ++ [.outgoing quietIo, .deliver (noteOf 7)]

theorem no_lost_wakeup_roused :
    (roused.foldl step (opened : Connection Unit)).Ready (.outgoing quietIo) := by
  have hRun : Reachable (roused.foldl step (opened : Connection Unit)) := Reachable.foldl .refl (by decide +kernel)
  have hOut : (roused.foldl step (opened : Connection Unit)).outgoing = .waiting true := by decide +kernel
  refine no_lost_wakeup hRun hOut ?_ quietIo
  have hWork : ∀ q ∈ (roused.foldl step (opened : Connection Unit)).member, q.isEmpty = false := by decide +kernel
  exact fun q hq => .inr (hWork q hq)

end Utu.Hub.Connection
