import Utu.Lib.Outcome

/-!
# The relay between hub and listener

`Proxy_event_loop` has one slot for each direction. Whether a slot is full is kept
in the two descriptor sets: a side that waits to be read is in one of them, and
the other side, once there is something to write to it, in the other. The two
directions share descriptors but never a descriptor in the same set, so neither
can disturb what the sets say of the other.
-/

namespace Utu.Client
set_option autoImplicit false

/-- The direction, named by the side that is read: `enum { HUB=0, LISTENER=1 }` -/
inductive Side where
  | hub
  | listener
deriving DecidableEq, Repr

/-- The descriptors of a proxy. The listener may be read and written through one. -/
structure Descriptors where
  host : Int
  readFd : Int
  writeFd : Int
  host_ne_readFd : host ≠ readFd
  host_ne_writeFd : host ≠ writeFd

/-- What the loop did: it took a header and a body from a side, or gave what it has from it to the other. -/
inductive Deed (N : Type) where
  | took (side : Side) (header body : N)
  | gave (side : Side) (header body : Option N)
deriving DecidableEq, Repr

def Deed.side {N : Type} : Deed N → Side
  | .took side _ _ => side
  | .gave side _ _ => side

/-- The variables of the loop, and what it has done so far. -/
structure EventLoop (N : Type) where
  readset : Finset Int
  writeset : Finset Int
  readmask : Finset Int
  writemask : Finset Int
  header : Side → Option N
  body : Side → Option N
  deeds : List (Deed N)

/-- The answers in one turn of the loop: what `select` returns and finds ready, and what the calls that are made
come to. A receiver gives the body and the header. -/
structure Turn (N : Type) where
  rc : Int
  readable : Finset Int
  writable : Finset Int
  hubRecv : Option N × Option N
  listenerSend : Bool
  listenerRecv : Option N × Option N
  hubSend : Bool

/-- How the loop comes to an end. -/
inductive LoopEnd where
  | failed
  | aborted
deriving DecidableEq, Repr

namespace EventLoop
variable {N : Type}

/-- A message was taken: `FD_SWAP(writefd, &writeset, readfd, &readset)` -/
def take (s : EventLoop N) (side : Side) (readfd writefd : Int) (header body : N) : EventLoop N :=
  { s with
    body := Function.update s.body side (some body)
    header := Function.update s.header side (some header)
    writeset := insert writefd s.writeset
    readset := s.readset.erase readfd
    deeds := s.deeds ++ [.took side header body] }

/-- The message was given on: `FD_SWAP(readfd, &readset, writefd, &writeset)` -/
def give (s : EventLoop N) (side : Side) (readfd writefd : Int) : EventLoop N :=
  { s with
    readset := insert readfd s.readset
    writeset := s.writeset.erase writefd
    deeds := s.deeds ++ [.gave side (s.header side) (s.body side)] }

end EventLoop

section Loop
variable {N : Type}

/-- `check_err` on what a call returned: a failure is reported, and the loop left. -/
def checkIo (ok : Bool) : Except LoopEnd Unit := if ok then pure () else throw .failed

/-- The first half of `PROXY_HANDLE_EVENT` -/
def handleRead (side : Side) (readfd writefd : Int) (got : Option N × Option N) (s : EventLoop N) :
    Except LoopEnd (EventLoop N) :=
  if readfd ∈ s.readmask then
    match got with
    | (some body, some header) => pure (s.take side readfd writefd header body)
    | _ => throw .failed
  else pure s

/-- The second half; `present` is what the sender asserts of its arguments. -/
def handleWrite (side : Side) (readfd writefd : Int) (present : Option N → Option N → Bool) (sent : Bool)
    (s : EventLoop N) : Except LoopEnd (EventLoop N) :=
  if writefd ∈ s.writemask then
    if present (s.header side) (s.body side) then do
      checkIo sent
      pure (s.give side readfd writefd)
    else throw .aborted
  else pure s

/-- `PROXY_HANDLE_EVENT` -/
def handleEvent (side : Side) (readfd : Int) (got : Option N × Option N) (writefd : Int)
    (present : Option N → Option N → Bool) (sent : Bool) (s : EventLoop N) : Except LoopEnd (EventLoop N) := do
  let s ← handleRead side readfd writefd got s
  handleWrite side readfd writefd present sent s

/-- `select` leaves those descriptors of the sets that are ready. -/
def EventLoop.select (s : EventLoop N) (t : Turn N) : EventLoop N :=
  { s with readmask := s.readset ∩ t.readable, writemask := s.writeset ∩ t.writable }

/-- One turn of the loop in `Proxy_event_loop`. `Proxy_listener_send` asserts that there is a header,
`Proxy_hub_send` that there are both. -/
def turn (fds : Descriptors) (t : Turn N) (s : EventLoop N) : Except LoopEnd (EventLoop N) := do
  checkIo (t.rc ≠ 0)
  checkIo (0 < t.rc)
  let s ← handleEvent .hub fds.host t.hubRecv fds.writeFd (fun header _ => header.isSome) t.listenerSend (s.select t)
  handleEvent .listener fds.readFd t.listenerRecv fds.host (fun header body => header.isSome && body.isSome)
    t.hubSend s

/-- Before the loop both sides are to be read. -/
def eventLoop (fds : Descriptors) : EventLoop N :=
  ⟨{fds.host, fds.readFd}, ∅, ∅, ∅, fun _ => none, fun _ => none, []⟩

def turns (fds : Descriptors) : List (Turn N) → EventLoop N → Except LoopEnd (EventLoop N)
  | [], s => pure s
  | t :: ts, s => turn fds t s >>= turns fds ts

/-- No call of the turn fails. -/
def Turn.Works (t : Turn N) : Prop :=
  0 < t.rc ∧ t.hubRecv.1.isSome ∧ t.hubRecv.2.isSome ∧ t.listenerSend ∧ t.listenerRecv.1.isSome ∧
    t.listenerRecv.2.isSome ∧ t.hubSend

end Loop

/-! ## One direction -/

section Direction
variable {N : Type}

def EventLoop.deedsOf (s : EventLoop N) (side : Side) : List (Deed N) := s.deeds.filter (·.side = side)

/-- Messages taken and given on, one after the other. -/
def exchanges (side : Side) (ms : List (N × N)) : List (Deed N) :=
  ms.flatMap fun m => [.took side m.1 m.2, .gave side (some m.1) (some m.2)]

/-- The slot is empty: everything taken was given on, and the side is to be read. -/
structure Idle (side : Side) (readfd writefd : Int) (s : EventLoop N) (ms : List (N × N)) : Prop where
  readset : readfd ∈ s.readset
  writeset : writefd ∉ s.writeset
  deeds : s.deedsOf side = exchanges side ms

/-- The slot holds the message that was taken last, and it is to be written. -/
structure Pending (side : Side) (readfd writefd : Int) (s : EventLoop N) (ms : List (N × N)) (m : N × N) : Prop where
  readset : readfd ∉ s.readset
  writeset : writefd ∈ s.writeset
  header : s.header side = some m.1
  body : s.body side = some m.2
  deeds : s.deedsOf side = exchanges side ms ++ [.took side m.1 m.2]

def OneSlot (side : Side) (readfd writefd : Int) (s : EventLoop N) : Prop :=
  (∃ ms, Idle side readfd writefd s ms) ∨ ∃ ms m, Pending side readfd writefd s ms m

/-- The masks were sampled from the sets. -/
def Sampled (readfd writefd : Int) (s : EventLoop N) : Prop :=
  (readfd ∈ s.readmask → readfd ∈ s.readset) ∧ (writefd ∈ s.writemask → writefd ∈ s.writeset)

/-- What a direction sees of the loop is the same in both states. -/
structure Undisturbed (side : Side) (readfd writefd : Int) (s s' : EventLoop N) : Prop where
  readset : readfd ∈ s'.readset ↔ readfd ∈ s.readset
  writeset : writefd ∈ s'.writeset ↔ writefd ∈ s.writeset
  readmask : readfd ∈ s'.readmask ↔ readfd ∈ s.readmask
  writemask : writefd ∈ s'.writemask ↔ writefd ∈ s.writemask
  header : s'.header side = s.header side
  body : s'.body side = s.body side
  deeds : s'.deedsOf side = s.deedsOf side

variable {side other : Side} {readfd writefd readfd' writefd' : Int} {s s' : EventLoop N}

theorem Undisturbed.refl (s : EventLoop N) : Undisturbed side readfd writefd s s :=
  ⟨.rfl, .rfl, .rfl, .rfl, rfl, rfl, rfl⟩

theorem Undisturbed.oneSlot (h : Undisturbed side readfd writefd s s') (hs : OneSlot side readfd writefd s) :
    OneSlot side readfd writefd s' := by
  rcases hs with ⟨ms, hIdle⟩ | ⟨ms, m, hPending⟩
  · refine .inl ⟨ms, h.readset.mpr hIdle.readset, fun hw => hIdle.writeset (h.writeset.mp hw), ?_⟩
    exact h.deeds.trans hIdle.deeds
  · refine .inr ⟨ms, m, fun hr => hPending.readset (h.readset.mp hr), h.writeset.mpr hPending.writeset, ?_, ?_, ?_⟩
    · exact h.header.trans hPending.header
    · exact h.body.trans hPending.body
    · exact h.deeds.trans hPending.deeds

theorem Undisturbed.sampled (h : Undisturbed side readfd writefd s s') (hs : Sampled readfd writefd s) :
    Sampled readfd writefd s' :=
  ⟨fun hr => h.readset.mpr (hs.1 (h.readmask.mp hr)), fun hw => h.writeset.mpr (hs.2 (h.writemask.mp hw))⟩

/-- A message of the other direction. -/
theorem undisturbed_take (hSide : other ≠ side) (hRead : readfd' ≠ readfd) (hWrite : writefd' ≠ writefd)
    (header body : N) : Undisturbed other readfd' writefd' s (s.take side readfd writefd header body) where
  readset := by simp [EventLoop.take, hRead]
  writeset := by simp [EventLoop.take, hWrite]
  readmask := .rfl
  writemask := .rfl
  header := Function.update_of_ne hSide _ _
  body := Function.update_of_ne hSide _ _
  deeds := by simp [EventLoop.deedsOf, EventLoop.take, Deed.side, hSide.symm]

theorem undisturbed_give (hSide : other ≠ side) (hRead : readfd' ≠ readfd) (hWrite : writefd' ≠ writefd) :
    Undisturbed other readfd' writefd' s (s.give side readfd writefd) where
  readset := by simp [EventLoop.give, hRead]
  writeset := by simp [EventLoop.give, hWrite]
  readmask := .rfl
  writemask := .rfl
  header := rfl
  body := rfl
  deeds := by simp [EventLoop.deedsOf, EventLoop.give, Deed.side, hSide.symm]

theorem Idle.take {ms : List (N × N)} (h : Idle side readfd writefd s ms) (header body : N) :
    Pending side readfd writefd (s.take side readfd writefd header body) ms (header, body) where
  readset := by simp [EventLoop.take]
  writeset := by simp [EventLoop.take]
  header := Function.update_self ..
  body := Function.update_self ..
  deeds := by
    rw [← h.deeds]
    simp [EventLoop.deedsOf, EventLoop.take, Deed.side]

theorem Pending.give {ms : List (N × N)} {m : N × N} (h : Pending side readfd writefd s ms m) :
    Idle side readfd writefd (s.give side readfd writefd) (ms ++ [m]) where
  readset := by simp [EventLoop.give]
  writeset := by simp [EventLoop.give]
  deeds := by
    have hDeeds : (s.give side readfd writefd).deedsOf side =
        s.deedsOf side ++ [.gave side (s.header side) (s.body side)] := by
      simp [EventLoop.deedsOf, EventLoop.give, Deed.side]
    rw [hDeeds, h.deeds, h.header, h.body]
    simp [exchanges]

theorem handleRead_skip (h : readfd ∉ s.readmask) (got : Option N × Option N) :
    handleRead side readfd writefd got s = .ok s := if_neg h

theorem handleRead_take (h : readfd ∈ s.readmask) (header body : N) :
    handleRead side readfd writefd (some body, some header) s = .ok (s.take side readfd writefd header body) :=
  if_pos h

theorem handleRead_failed (h : readfd ∈ s.readmask) {got : Option N × Option N}
    (hGot : ¬(got.1.isSome = true ∧ got.2.isSome = true)) : handleRead side readfd writefd got s = .error .failed := by
  obtain ⟨body, header⟩ := got
  cases body with
  | none => exact if_pos h
  | some body =>
    cases header with
    | none => exact if_pos h
    | some header => exact absurd ⟨rfl, rfl⟩ hGot

theorem handleWrite_skip (h : writefd ∉ s.writemask) (present : Option N → Option N → Bool) (sent : Bool) :
    handleWrite side readfd writefd present sent s = .ok s := if_neg h

theorem handleWrite_present (h : writefd ∈ s.writemask) {present : Option N → Option N → Bool}
    (hPresent : present (s.header side) (s.body side) = true) (sent : Bool) :
    handleWrite side readfd writefd present sent s =
      if sent then .ok (s.give side readfd writefd) else .error .failed := by
  rw [handleWrite, if_pos h, if_pos hPresent]
  cases sent <;> rfl

/-- The event of one direction keeps its slot in order and does not touch the other direction. It stops the loop
only when a call fails. -/
theorem handleEvent_spec (hSlot : OneSlot side readfd writefd s) (hSampled : Sampled readfd writefd s)
    (got : Option N × Option N) (present : Option N → Option N → Bool) (sent : Bool)
    (hPresent : ∀ header body, present (some header) (some body) = true) :
    (∃ s', handleEvent side readfd got writefd present sent s = .ok s' ∧ OneSlot side readfd writefd s' ∧
      ∀ other readfd' writefd', other ≠ side → readfd' ≠ readfd → writefd' ≠ writefd →
        Undisturbed other readfd' writefd' s s') ∨
    handleEvent side readfd got writefd present sent s = .error .failed ∧
      ¬(got.1.isSome = true ∧ got.2.isSome = true ∧ sent = true) := by
  rcases hSlot with ⟨ms, hIdle⟩ | ⟨ms, m, hPending⟩
  · -- the masks cannot ask for a write, not even behind a read of this turn
    have hNoWrite : writefd ∉ s.writemask := fun h => hIdle.writeset (hSampled.2 h)
    by_cases hRead : readfd ∈ s.readmask
    · by_cases hGot : got.1.isSome = true ∧ got.2.isSome = true
      · obtain ⟨body, header⟩ := got
        obtain ⟨body, rfl⟩ := Option.isSome_iff_exists.mp hGot.1
        obtain ⟨header, rfl⟩ := Option.isSome_iff_exists.mp hGot.2
        refine .inl ⟨s.take side readfd writefd header body, ?_, .inr ⟨ms, _, hIdle.take header body⟩, ?_⟩
        · rw [handleEvent, Outcome.bind_of_ok (handleRead_take hRead header body)]
          exact if_neg hNoWrite
        · intro other readfd' writefd' hSide hRead' hWrite'
          exact undisturbed_take hSide hRead' hWrite' header body
      · refine .inr ⟨?_, fun h => hGot ⟨h.1, h.2.1⟩⟩
        rw [handleEvent, Outcome.bind_of_error (handleRead_failed hRead hGot)]
    · refine .inl ⟨s, ?_, .inl ⟨ms, hIdle⟩, fun _ _ _ _ _ _ => .refl s⟩
      rw [handleEvent, Outcome.bind_of_ok (handleRead_skip hRead got)]
      exact handleWrite_skip hNoWrite present sent
  · have hNoRead : readfd ∉ s.readmask := fun h => hPending.readset (hSampled.1 h)
    have hEvent : handleEvent side readfd got writefd present sent s =
        handleWrite side readfd writefd present sent s := by
      rw [handleEvent, Outcome.bind_of_ok (handleRead_skip hNoRead got)]
    rw [hEvent]
    by_cases hWrite : writefd ∈ s.writemask
    · rw [handleWrite_present hWrite (by rw [hPending.header, hPending.body, hPresent])]
      cases sent with
      | false => exact .inr ⟨rfl, fun h => absurd h.2.2 (by simp)⟩
      | true =>
        refine .inl ⟨_, rfl, .inl ⟨_, hPending.give⟩, ?_⟩
        intro other readfd' writefd' hSide hRead' hWrite'
        exact undisturbed_give hSide hRead' hWrite'
    · refine .inl ⟨s, handleWrite_skip hWrite present sent, .inr ⟨ms, m, hPending⟩, fun _ _ _ _ _ _ => .refl s⟩

end Direction

/-! ## Both directions -/

section Relay
variable {N : Type} {fds : Descriptors} {s : EventLoop N}

/-- Both directions are in order. -/
structure Relaying (fds : Descriptors) (s : EventLoop N) : Prop where
  hub : OneSlot .hub fds.host fds.writeFd s
  listener : OneSlot .listener fds.readFd fds.host s

theorem relaying_eventLoop (fds : Descriptors) : Relaying fds (eventLoop fds : EventLoop N) where
  hub := .inl ⟨[], by simp [eventLoop], by simp [eventLoop], rfl⟩
  listener := .inl ⟨[], by simp [eventLoop], by simp [eventLoop], rfl⟩

theorem sampled_select (readfd writefd : Int) (s : EventLoop N) (t : Turn N) : Sampled readfd writefd (s.select t) :=
  ⟨fun h => Finset.mem_of_mem_inter_left h, fun h => Finset.mem_of_mem_inter_left h⟩

theorem Relaying.select (h : Relaying fds s) (t : Turn N) : Relaying fds (s.select t) := by
  constructor
  · rcases h.hub with ⟨ms, hIdle⟩ | ⟨ms, m, hPending⟩
    · exact .inl ⟨ms, hIdle.readset, hIdle.writeset, hIdle.deeds⟩
    · exact .inr ⟨ms, m, hPending.readset, hPending.writeset, hPending.header, hPending.body, hPending.deeds⟩
  · rcases h.listener with ⟨ms, hIdle⟩ | ⟨ms, m, hPending⟩
    · exact .inl ⟨ms, hIdle.readset, hIdle.writeset, hIdle.deeds⟩
    · exact .inr ⟨ms, m, hPending.readset, hPending.writeset, hPending.header, hPending.body, hPending.deeds⟩

/-- One turn. -/
theorem Relaying.turn (h : Relaying fds s) (t : Turn N) :
    (∃ s', turn fds t s = .ok s' ∧ Relaying fds s') ∨ turn fds t s = .error .failed ∧ ¬t.Works := by
  by_cases hRc : 0 < t.rc
  case neg =>
    refine .inr ⟨?_, fun hWorks => hRc hWorks.1⟩
    rw [Client.turn]
    by_cases hZero : t.rc ≠ 0 <;> simp [checkIo, hZero, hRc] <;> rfl
  have hSelect : Client.turn fds t s =
      (handleEvent .hub fds.host t.hubRecv fds.writeFd (fun header _ => header.isSome) t.listenerSend (s.select t) >>=
        handleEvent .listener fds.readFd t.listenerRecv fds.host (fun header body => header.isSome && body.isSome)
          t.hubSend) := by
    have hZero : t.rc ≠ 0 := by omega
    simp [Client.turn, checkIo, hZero, hRc]
  rw [hSelect]
  have hSampled : ∀ readfd writefd, Sampled readfd writefd (s.select t) := fun r w => sampled_select r w s t
  rcases handleEvent_spec (h.select t).hub (hSampled _ _) t.hubRecv (fun header _ => header.isSome) t.listenerSend
    (fun _ _ => rfl) with
    ⟨s₁, hHub, hSlot, hOther⟩ | ⟨hHub, hFails⟩
  case inr =>
    refine .inr ⟨by rw [Outcome.bind_of_error hHub], fun hWorks => ?_⟩
    exact hFails ⟨hWorks.2.1, hWorks.2.2.1, hWorks.2.2.2.1⟩
  rw [Outcome.bind_of_ok hHub]
  have hListener := hOther .listener fds.readFd fds.host (by decide) fds.host_ne_readFd.symm fds.host_ne_writeFd
  rcases handleEvent_spec (hListener.oneSlot (h.select t).listener) (hListener.sampled (hSampled _ _)) t.listenerRecv
    (fun header body => header.isSome && body.isSome) t.hubSend (fun _ _ => rfl) with
    ⟨s₂, hSecond, hSlot₂, hOther₂⟩ | ⟨hSecond, hFails⟩
  case inr =>
    refine .inr ⟨hSecond, fun hWorks => ?_⟩
    exact hFails hWorks.2.2.2.2
  have hBack := hOther₂ .hub fds.host fds.writeFd (by decide) fds.host_ne_readFd fds.host_ne_writeFd.symm
  exact .inl ⟨s₂, hSecond, hBack.oneSlot hSlot, hSlot₂⟩

/-- All turns. -/
theorem Relaying.turns (h : Relaying fds s) (ts : List (Turn N)) :
    (∃ s', turns fds ts s = .ok s' ∧ Relaying fds s') ∨
      turns fds ts s = .error .failed ∧ ¬∀ t ∈ ts, t.Works := by
  induction ts generalizing s with
  | nil => exact .inl ⟨s, rfl, h⟩
  | cons t ts ih =>
    rw [Client.turns]
    rcases h.turn t with ⟨s₁, hTurn, h₁⟩ | ⟨hTurn, hFails⟩
    · rw [Outcome.bind_of_ok hTurn]
      rcases ih h₁ with hOk | ⟨hError, hFails⟩
      · exact .inl hOk
      · exact .inr ⟨hError, fun hAll => hFails fun u hu => hAll u (List.mem_cons_of_mem t hu)⟩
    · rw [Outcome.bind_of_error hTurn]
      exact .inr ⟨rfl, fun hAll => hFails (hAll t List.mem_cons_self)⟩

def Deed.taken? : Deed N → Option (N × N)
  | .took _ header body => some (header, body)
  | .gave _ _ _ => none

def Deed.given? : Deed N → Option (Option N × Option N)
  | .took _ _ _ => none
  | .gave _ header body => some (header, body)

/-- What was taken from a side and what was given on to the other, each in order. -/
def EventLoop.taken (s : EventLoop N) (side : Side) : List (N × N) := (s.deedsOf side).filterMap Deed.taken?

def EventLoop.given (s : EventLoop N) (side : Side) : List (Option N × Option N) :=
  (s.deedsOf side).filterMap Deed.given?

/-- Everything taken was given on, but for at most one message, which is in the slot; and every message was given on
before the next was taken. -/
def Faithful (s : EventLoop N) (side : Side) : Prop :=
  ∃ ms pending : List (N × N), pending.length ≤ 1 ∧ s.taken side = ms ++ pending ∧
    s.given side = ms.map (fun m => (some m.1, some m.2)) ∧
    s.deedsOf side = exchanges side ms ++ pending.map (fun m => .took side m.1 m.2) ∧
    ∀ m ∈ pending, s.header side = some m.1 ∧ s.body side = some m.2

theorem taken_exchanges (side : Side) (ms : List (N × N)) : (exchanges side ms).filterMap Deed.taken? = ms := by
  induction ms with
  | nil => rfl
  | cons m ms ih =>
    simp only [exchanges, List.flatMap_cons, List.filterMap_append] at ih ⊢
    rw [ih]
    rfl

theorem given_exchanges (side : Side) (ms : List (N × N)) :
    (exchanges side ms).filterMap Deed.given? = ms.map fun m => (some m.1, some m.2) := by
  induction ms with
  | nil => rfl
  | cons m ms ih =>
    simp only [exchanges, List.flatMap_cons, List.filterMap_append] at ih ⊢
    rw [ih]
    rfl

theorem OneSlot.faithful {side : Side} {readfd writefd : Int} (h : OneSlot side readfd writefd s) :
    Faithful s side := by
  rcases h with ⟨ms, hIdle⟩ | ⟨ms, m, hPending⟩
  · refine ⟨ms, [], Nat.zero_le 1, ?_, ?_, ?_, by simp⟩
    · rw [EventLoop.taken, hIdle.deeds, taken_exchanges, List.append_nil]
    · rw [EventLoop.given, hIdle.deeds, given_exchanges]
    · rw [hIdle.deeds, List.map_nil, List.append_nil]
  · refine ⟨ms, [m], Nat.le_refl 1, ?_, ?_, hPending.deeds, ?_⟩
    · rw [EventLoop.taken, hPending.deeds, List.filterMap_append, taken_exchanges]
      rfl
    · rw [EventLoop.given, hPending.deeds, List.filterMap_append, given_exchanges]
      exact List.append_nil _
    · intro m' hm'
      obtain rfl := List.mem_singleton.mp hm'
      exact ⟨hPending.header, hPending.body⟩

/-- The loop loses, repeats and reorders nothing in either direction, never sends from an empty slot, and goes on
as long as no call fails. -/
theorem eventLoop_faithful (fds : Descriptors) (ts : List (Turn N)) :
    (∀ s, turns fds ts (eventLoop fds) = .ok s → ∀ side, Faithful s side) ∧
      turns fds ts (eventLoop fds) ≠ .error .aborted ∧
      ((∀ t ∈ ts, t.Works) → ∃ s, turns fds ts (eventLoop fds) = .ok s) := by
  rcases (relaying_eventLoop fds).turns ts with ⟨s', hOk, hs'⟩ | ⟨hFailed, hFails⟩
  · rw [hOk]
    refine ⟨?_, by simp, fun _ => ⟨s', rfl⟩⟩
    rintro s hs side
    cases hs
    cases side with
    | hub => exact hs'.hub.faithful
    | listener => exact hs'.listener.faithful
  · rw [hFailed]
    exact ⟨by simp, by simp, fun hAll => absurd hAll hFails⟩

end Relay

/-- The listener is read and written through one descriptor. -/
def oneDescriptor : Descriptors := ⟨5, 3, 3, by decide, by decide⟩

/-- A message is taken from each side, and the one from the hub given on. -/
def twoTurns : List (Turn Nat) :=
  [⟨2, {3, 5}, {}, (some 11, some 10), true, (some 21, some 20), true⟩,
    ⟨1, {}, {3}, (none, none), true, (none, none), true⟩]

theorem eventLoop_faithful_twoTurns :
    ∃ s, turns oneDescriptor twoTurns (eventLoop oneDescriptor) = .ok s ∧ s.taken .hub = [(10, 11)] ∧
      s.given .hub = [(some 10, some 11)] ∧ s.taken .listener = [(20, 21)] ∧ s.given .listener = [] ∧
      ∀ side, Faithful s side := by
  refine ⟨_, rfl, ?_, ?_, ?_, ?_, (eventLoop_faithful oneDescriptor twoTurns).1 _ rfl⟩
  all_goals decide

end Utu.Client
