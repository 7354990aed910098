import Utu.Hub.Effects

/-!
# Calm runs of a connection

The queue of a connection goes with its close, and with it the message that
the writing task is about to send. In a calm run nothing is closed while the
writing task has a message, and the writing task takes none in state Aborting.
-/

namespace Utu.Hub.Connection
set_option autoImplicit false

variable {D : Type} {c c' : Connection D} {q : MsgQueue D} {l : List (Message D)} {e : Event D}

/-- The reading task is about to begin a close. -/
def closing (c : Connection D) (io : Io D) : Bool :=
  match c.incoming with
  | .reading => io.packet.body.isNone || c.cs = .aborting && c.lock.isNone
  | .locking => c.cs = .aborting
  | _ => false

def Calm (c : Connection D) : Event D → Prop
  | .incoming io => c.client = true → c.closing io = true → c.sendMsg = none
  | .outgoing _ => c.cs = .aborting → c.queued = []
  | _ => True

instance (c : Connection D) : (e : Event D) → Decidable (c.Calm e)
  | .incoming io => inferInstanceAs (Decidable (c.client = true → c.closing io = true → c.sendMsg = none))
  | .outgoing _ => inferInstanceAs (Decidable (c.cs = .aborting → c.queued = []))
  | .deliver _ => .isTrue trivial
  | .finish => .isTrue trivial

/-- What a calm run keeps: a connection that is down has no message left to send, the writing task
closes behind its loop only, and it sends in state Sending. -/
structure Tidy (c : Connection D) : Prop where
  sendMsg : c.client = false → c.sendMsg = none
  holding : c.client = false → c.outgoing.holding = false
  quits : ∀ rest, c.outgoing ≠ .closing .msgQueued rest
  sendCalls : ∀ v ∈ c.past.sendCalls, v.cs = .sending ∧ v.member = true

theorem wake_closing (o : Outgoing) (call : WriteCall) (rest : Bool) :
    o.wake = .closing call rest ↔ o = .closing call rest := by
  cases o <;> simp [Outgoing.wake]

theorem FirstStep.tidy (hStep : FirstStep e c') : Tidy c' := by
  cases hStep <;> constructor <;> simp [opened, Outgoing.holding]

theorem OpeningStep.tidy (h : Opening c) (hStep : OpeningStep c e c') : Tidy c' := by
  obtain ⟨confirm, hYoung⟩ := h.young
  cases hStep <;> constructor <;>
    simp [hYoung.sendMsg, hYoung.outgoing, hYoung.sendCalls, Outgoing.holding]

namespace Live

/-- The writing task has a message exactly when `send.msg` is set. -/
theorem holding_eq (h : Live c q l) (hMsg : c.sendMsg = none) : c.outgoing.holding = false := by
  by_contra hHolding
  rw [Bool.not_eq_false] at hHolding
  have hNone := h.sendMsg
  rw [if_pos hHolding, hMsg, eq_comm, List.head?_eq_none_iff] at hNone
  exact h.peeked hHolding hNone

theorem not_closing (h : Live c q l) (call : WriteCall) (rest : Bool) : c.outgoing ≠ .closing call rest := by
  intro hOut
  have hLive := h.outgoing
  rw [hOut] at hLive
  cases hLive

theorem sendMsg_of_closing (h : Live c q l) {io : Io D} (hCalm : c.Calm (.incoming io))
    (hClosing : c.closing io = true) : c.sendMsg = none ∧ c.outgoing.holding = false :=
  have hMsg := hCalm h.client hClosing
  ⟨hMsg, h.holding_eq hMsg⟩

end Live

theorem Received.sendCalls {io : Io D} (h : Received io c c') : c'.past.sendCalls = c.past.sendCalls := by
  cases h <;> rfl

theorem LiveStep.tidy (h : Live c q l) (hStep : LiveStep c q l e c') (hCalm : c.Calm e) (hTidy : Tidy c) :
    Tidy c' := by
  -- a step that leaves the connection live keeps what is said of those that are down
  have stays : c'.client = true → (∀ rest, c'.outgoing ≠ .closing .msgQueued rest) →
      (∀ v ∈ c'.past.sendCalls, v.cs = .sending ∧ v.member = true) → Tidy c' :=
    fun hClient hQuits hCalls => ⟨by simp [hClient], by simp [hClient], hQuits, hCalls⟩
  cases hStep with
  | hangUp io hIn hBody =>
    obtain ⟨hMsg, hHolding⟩ := h.sendMsg_of_closing hCalm (by simp [closing, hIn, hBody])
    exact ⟨fun _ => hMsg, fun _ => (wake_holding _).trans hHolding,
      fun rest => (wake_closing _ _ _).not.mpr (h.not_closing _ _), hTidy.sendCalls⟩
  | await io hIn hBody hLock => exact stays h.client hTidy.quits hTidy.sendCalls
  | received io hHold hCs hReceived =>
    have hFields := hReceived.fields.2
    have hCalls := hReceived.sendCalls
    rw [hHold.fields] at hFields hCalls
    rw [hFields]
    rw [hFields] at stays
    exact stays h.client hTidy.quits (hCalls ▸ hTidy.sendCalls)
  | tornDown io hHold hCs =>
    have hClosing : c.closing io = true := by
      cases hHold with
      | handed hIn hLock => simp [closing, hIn, hCs]
      | free hIn hLock hBody => simp [closing, hIn, hCs, hLock]
    obtain ⟨hMsg, hHolding⟩ := h.sendMsg_of_closing hCalm hClosing
    rw [hHold.fields]
    exact ⟨fun _ => hMsg, fun _ => (wake_holding _).trans hHolding,
      fun rest => (wake_closing _ _ _).not.mpr (h.not_closing _ _), hTidy.sendCalls⟩
  | reread io hIn => exact stays h.client hTidy.quits hTidy.sendCalls
  | sleep io hOut hEmpty => exact stays h.client (by simp) hTidy.sendCalls
  | starve io hOut hEmpty =>
    have hMsg : c.sendMsg = none := by rw [h.sendMsg, hOut]; rfl
    exact ⟨fun _ => hMsg, fun _ => rfl, by simp, hTidy.sendCalls⟩
  | peek io hOut hFirst hLock => exact stays h.client (by simp) hTidy.sendCalls
  | send io hTake hFirst hCs vs hViews v hView =>
    rw [hTake.fields] at stays ⊢
    exact stays h.client (by simp) (List.forall_mem_append.mpr ⟨hTidy.sendCalls, by simpa using hView⟩)
  | quit io hTake hFirst hCs =>
    have hEmpty := hCalm hCs
    rw [h.queued, hFirst] at hEmpty
    cases hEmpty
  | sent io hOut hSent hFirst hAlive hHolds => exact stays h.client (by simp) hTidy.sendCalls
  | failed io hOut hSent v hView => exact ⟨fun _ => rfl, fun _ => rfl, by simp, hTidy.sendCalls⟩
  | delivered m hAdd hAlive hHolds =>
    exact stays h.client (fun rest => (wake_closing _ _ _).not.mpr (h.not_closing _ _)) hTidy.sendCalls
  | full m hFull => exact hTidy

section Fields
variable (c : Connection D) (event : HubEvent) (side : Side)

@[simp] theorem retire_client : (c.retire event).client = c.client := by rw [retire_fields]

@[simp] theorem retire_sendMsg : (c.retire event).sendMsg = c.sendMsg := by rw [retire_fields]

@[simp] theorem retire_outgoing : (c.retire event).outgoing = c.outgoing := by rw [retire_fields]

@[simp] theorem retire_sendCalls : (c.retire event).past.sendCalls = c.past.sendCalls := by
  rw [retire_fields]

@[simp] theorem unlock_client : (c.unlock side).client = c.client := by rw [unlock_fields]

@[simp] theorem unlock_sendMsg : (c.unlock side).sendMsg = c.sendMsg := by rw [unlock_fields]

@[simp] theorem unlock_outgoing : (c.unlock side).outgoing = c.outgoing := by rw [unlock_fields]

end Fields

theorem DownStep.tidy (h : Down c) (hStep : DownStep c e c') (hTidy : Tidy c) : Tidy c' := by
  have hMsg := hTidy.sendMsg h.client
  have hHolding := hTidy.holding h.client
  have kept : c'.sendMsg = none → c'.outgoing = c.outgoing ∨ c'.outgoing = .unlocked ∨ c'.outgoing = .ended →
      c'.past.sendCalls = c.past.sendCalls → Tidy c' := by
    intro hNone hOut hCalls
    refine ⟨fun _ => hNone, fun _ => ?_, fun rest => ?_, hCalls ▸ hTidy.sendCalls⟩
    · rcases hOut with hOut | hOut | hOut <;> rw [hOut]
      · exact hHolding
      · rfl
      · rfl
    · rcases hOut with hOut | hOut | hOut <;> rw [hOut]
      · exact hTidy.quits rest
      · simp
      · simp
  cases hStep with
  | unread io hIn =>
    exact kept (by simpa [handled, emit] using hMsg) (by simp [handled, emit]) (by simp [handled, emit])
  | hangUp io hIn hBody =>
    exact kept (by simpa [handled, emit] using hMsg) (by simp [handled, emit]) (by simp [handled, emit])
  | await io hIn hBody hLock => exact kept hMsg (.inl rfl) rfl
  | msgRecv io hHold =>
    rw [hHold.fields] at kept ⊢
    exact kept (by simpa [readUnlock] using hMsg) (by simp [readUnlock]) (by simp [readUnlock])
  | unestablished io hIn hMember =>
    exact kept (by simpa [handled, emit, logout, seen] using hMsg) (by simp [handled, emit, logout, seen])
      (by simp [handled, emit, logout, seen])
  | tornDown io hIn hMember =>
    refine kept ?_ ?_ ?_ <;> cases c.recvMsg.isSome <;>
      simp [readUnlock, logout, seen, hMsg]
  | readClosed io hIn hMember => exact kept hMsg (.inl rfl) rfl
  | refused io hIn hMember => exact kept hMsg (.inl rfl) rfl
  | ended io hOut hDone => exact kept hMsg (.inr (.inr rfl)) rfl
  | crashed io f hMember => exact kept hMsg (.inl rfl) rfl
  | writeClose io hOut hMember => exact kept (by simp) (.inr (.inr rfl)) (by simp)
  | msgQueued io hOut hLock => simp [hOut, Outgoing.holding] at hHolding
  | sent io hOut => simp [hOut, Outgoing.holding] at hHolding
  | sendClosed io hOut hMember hCs v => exact absurd hOut (hTidy.quits false)
  | sendDone io hOut hMember hDone => exact absurd hOut (hTidy.quits false)
  | writeClosed io hOut hMember => exact kept hMsg (.inr (.inr rfl)) rfl
  | delivered m hMember hHolds hAdd hDead hHolds' =>
    exact ⟨fun _ => hMsg, fun _ => (wake_holding _).trans hHolding,
      fun rest => (wake_closing _ _ _).not.mpr (hTidy.quits rest), hTidy.sendCalls⟩
  | undelivered m => exact hTidy
  | finish hIn => exact kept rfl (.inl rfl) rfl

/-- A calm step keeps a connection tidy. -/
theorem Tidy.step (hTidy : Tidy c) (hPhase : Phase c) (hFault : c.fault = none) (hReady : c.Ready e)
    (hCalm : c.Calm e) : Tidy (c.step e) := by
  cases hPhase with
  | opened h =>
    subst h
    exact (opened_cases hReady).tidy
  | opening h => exact (h.step_cases hReady).tidy h
  | live h => exact (h.step_cases hReady).tidy h hCalm hTidy
  | down h => exact (h.step_cases hFault hReady).tidy h hTidy
  | crashed h => simp [hFault] at h

end Utu.Hub.Connection
