import Utu.Hub.Steps

/-!
# The phases of a connection

Every connection that a run leads to is new, opening, live or down, or its
process has crashed in the first step.
-/

namespace Utu.Hub.Connection
set_option autoImplicit false

variable {D : Type} {c c' : Connection D} {q : MsgQueue D} {l : List (Message D)} {e : Event D}

inductive Phase (c : Connection D) : Prop
  | opened (h : c = opened)
  | opening (h : c.Opening)
  | live {q : MsgQueue D} {l : List (Message D)} (h : c.Live q l)
  | down (h : c.Down)
  | crashed (hFault : c.fault.isSome = true) (hCs : c.cs = .keyCheck) (hMember : c.member = none)
      (hOut : c.outgoing = .absent)

/-! ## Live connections -/

theorem wake_holding (o : Outgoing) : o.wake.holding = o.holding := by cases o <;> rfl

theorem wake_live (o : Outgoing) : o.wake.live = o.live := by cases o <;> rfl

theorem wake_down (o : Outgoing) : o.wake.down = o.down := by cases o <;> rfl

theorem wake_closes (o : Outgoing) : o.wake.closes = o.closes := by cases o <;> rfl

theorem wake_sending (o : Outgoing) : o.wake = .sending ↔ o = .sending := by
  cases o <;> simp [Outgoing.wake]

/-- A half close leads down, whichever task runs it. -/
theorem down_suspend {cs : Cs} (hCs : cs = .closing ∨ cs = .error) (hHolds : q.Holds l)
    {incoming : Incoming} {outgoing : Outgoing} (hIn : incoming.down = true)
    (hOut : outgoing.down = true) (hRest : incoming = .closing .readClose true → cs = .error)
    (hSending : outgoing = .sending → cs = .error)
    (hOne : incoming.closes = !outgoing.closes) :
    Down { c.suspend cs q with incoming, outgoing } where
  client := rfl
  cs := by
    rcases hCs with hCs | hCs
    · exact .inl hCs
    · exact .inr (.inl hCs)
  incoming := hIn
  outgoing := hOut
  rest := hRest
  sending := hSending
  one := by simp [hOne]
  closer := fun _ => by simp [hOne, suspend]
  member := by
    intro q' hMember
    cases hMember
    exact ⟨rfl, l, hHolds⟩

theorem Holding.fields {p : Packet D} {c₁ : Connection D} (h : Holding c p c₁) :
    c₁ = { c with recvHdr := c₁.recvHdr, recvBody := c₁.recvBody, lock := some .incoming
                  past := { c.past with packets := c₁.past.packets } } := by
  cases h with
  | handed hIn hLock => rw [← hLock]
  | free => rfl

theorem Received.fields {io : Io D} {c₁ : Connection D} (h : Received io c c₁) :
    (c₁.cs = .idle ∧ c₁.recvMsg = none ∨ c₁.cs = .aborting) ∧
      c₁ = { c with cs := c₁.cs, recvMsg := c₁.recvMsg, recvHdr := c₁.recvHdr, recvBody := c₁.recvBody
                    recvCount := c₁.recvCount, past := c₁.past, effects := c₁.effects } := by
  cases h with
  | malformed => exact ⟨.inr rfl, rfl⟩
  | misnumbered => exact ⟨.inr rfl, rfl⟩
  | unserviced => exact ⟨.inr rfl, rfl⟩
  | serviced => exact ⟨.inl ⟨rfl, rfl⟩, rfl⟩

theorem Taking.fields {m : Message D} {c₁ : Connection D} (h : Taking c m c₁) :
    c₁ = { c with sendMsg := some m, lock := some .outgoing } := by
  cases h with
  | handed _ hLock hMsg => rw [← hLock, ← hMsg]
  | free => rfl

namespace Live

theorem outgoing_down (h : Live c q l) : c.outgoing.wake.down = true ∧ c.outgoing.wake.closes = false := by
  have hLive := h.outgoing
  cases hOut : c.outgoing <;> simp_all [Outgoing.live, Outgoing.wake, Outgoing.down, Outgoing.closes]

theorem incoming_down (h : Live c q l) : c.incoming.down = true ∧ c.incoming.closes = false ∧
    c.incoming ≠ .closing .readClose true := by
  rcases h.incoming with hIn | hIn | hIn <;> simp [hIn, Incoming.down, Incoming.closes]

/-- The writing task closes a connection that it found live. -/
theorem down_of_outgoing (h : Live c q l) {c₁ : Connection D} (hIn : c₁.incoming = c.incoming)
    {call : WriteCall} (hCall : call = .msgQueued ∨ call = .writeClose) :
    Down { c₁.suspend .closing q with outgoing := .closing call false } := by
  obtain ⟨hDown, hCloses, hNot⟩ := h.incoming_down
  rw [← hIn] at hDown hCloses hNot
  exact down_suspend (c := c₁) (.inl rfl) h.holds hDown
    (by rcases hCall with rfl | rfl <;> rfl) (fun h => absurd h hNot) (by simp) hCloses

/-- The reading task closes a connection that it found live. -/
theorem down_of_incoming (h : Live c q l) {c₁ : Connection D} (hOut : c₁.outgoing = c.outgoing) {cs : Cs}
    (hCs : cs = .closing ∨ cs = .error) (hSending : c.outgoing = .sending → cs = .error)
    {call : ReadCall} {rest : Bool} (hIn : (Incoming.closing call rest).down = true)
    (hRest : rest = true → cs = .error) :
    Down { c₁.suspend cs q with incoming := .closing call rest } := by
  obtain ⟨hDown, hCloses⟩ := h.outgoing_down
  rw [← hOut] at hDown hCloses hSending
  refine down_suspend (c := c₁) hCs h.holds hIn hDown ?_ ?_ ?_
  · intro hSame
    cases hSame
    exact hRest rfl
  · exact fun hWake => hSending ((wake_sending _).mp hWake)
  · exact (congrArg (!·) hCloses).symm

theorem received (h : Live c q l) {io : Io D} {c₁ c₂ : Connection D} (hHold : Holding c io.packet c₁)
    (hReceived : Received io c₁ c₂) :
    Live { c₂ with lock := if c.outgoing = .locking then some .outgoing else none
                   incoming := .unlocked } q l := by
  have hLock : c.lock ≠ some .outgoing := by cases hHold <;> simp [*]
  have hOut : c.outgoing ≠ .sending := fun hOut => hLock (h.lockSending hOut)
  obtain ⟨hCs, hEq⟩ := hReceived.fields
  have hEq₁ := hHold.fields
  rw [hEq₁] at hEq
  rw [hEq]
  exact { h with
    cs := by
      rcases hCs with ⟨hCs, -⟩ | hCs
      · exact .inl hCs
      · exact .inr (.inr hCs)
    incoming := .inr (.inr rfl)
    sending := by
      refine ⟨fun h => absurd h hOut, fun h => ?_⟩
      rcases hCs with ⟨hCs, -⟩ | hCs <;> rw [hCs] at h <;> cases h
    lockIncoming := by
      intro hSome
      split at hSome <;> cases hSome
    lockOutgoing := by
      intro hSome
      split at hSome
      · rename_i hLocking
        exact congrArg Outgoing.holding hLocking
      · cases hSome
    lockSending := fun h => absurd h hOut
    recvMsg := by
      intro hNot
      rcases hCs with ⟨-, hMsg⟩ | hCs
      · exact hMsg
      · exact absurd hCs hNot }

theorem looking_holding (hOut : c.outgoing.looking = true) : c.outgoing.holding = false := by
  cases h : c.outgoing <;> simp_all [Outgoing.looking, Outgoing.holding]

theorem send (h : Live c q l) {m : Message D} {l' : List (Message D)} {c₁ : Connection D}
    (hTake : Taking c m c₁) (hFirst : l = m :: l') (hCs : c.cs = .idle) (past : History D)
    (sendCount : UInt64) :
    Live { c₁ with cs := .sending, sendCount, outgoing := .sending, past } q l := by
  rw [hTake.fields]
  exact { h with
    cs := .inr (.inl rfl)
    outgoing := rfl
    sending := ⟨fun _ => rfl, fun _ => rfl⟩
    lockIncoming := fun hLock => by cases hLock
    lockOutgoing := fun _ => rfl
    lockSending := fun _ => rfl
    recvMsg := fun _ => h.recvMsg (by simp [hCs])
    sendMsg := by simp [Outgoing.holding, hFirst]
    peeked := fun _ => by simp [hFirst] }

theorem sent (h : Live c q l) {q' : MsgQueue D} {l' : List (Message D)} (hOut : c.outgoing = .sending)
    (hAlive : q'.dead = false) (hHolds : q'.Holds l') (past : History D) (effects : List (Effect D)) :
    Live { c with cs := .idle, member := some q', effects, sendMsg := none
                  lock := if c.incoming = .locking then some .incoming else none
                  outgoing := .unlocked, past } q' l' := by
  have hCs := h.sending.mp hOut
  exact { h with
    member := rfl
    alive := hAlive
    holds := hHolds
    cs := .inl rfl
    outgoing := rfl
    sending := by simp
    lockIncoming := by
      intro hSome
      split at hSome
      · rename_i hLocking
        exact hLocking
      · cases hSome
    lockOutgoing := by
      intro hSome
      split at hSome <;> cases hSome
    lockSending := fun h => by cases h
    recvMsg := fun _ => h.recvMsg (by simp [hCs])
    sendMsg := rfl
    peeked := fun h => by cases h }

theorem delivered (h : Live c q l) {q' : MsgQueue D} {m : Message D} (hAlive : q'.dead = false)
    (hHolds : q'.Holds (l ++ [m])) (past : History D) :
    Live { c with member := some q', outgoing := c.outgoing.wake, past } q' (l ++ [m]) :=
  { h with
    member := rfl
    alive := hAlive
    holds := hHolds
    outgoing := (wake_live _).trans h.outgoing
    sending := (wake_sending _).trans h.sending
    lockOutgoing := fun hLock => (wake_holding _).trans (h.lockOutgoing hLock)
    lockSending := fun hOut => h.lockSending ((wake_sending _).mp hOut)
    sendMsg := by
      rw [wake_holding, h.sendMsg]
      split
      · rename_i hHolding
        obtain ⟨m', l', rfl⟩ := List.exists_cons_of_ne_nil (h.peeked hHolding)
        rfl
      · rfl
    peeked := by simp }

/-- A live connection stays so, or is half closed. -/
theorem step (h : Live c q l) (hStep : LiveStep c q l e c') :
    (∃ q' l', Live c' q' l') ∨ Down c' := by
  cases hStep with
  | hangUp io hIn hBody =>
    apply Or.inr
    refine h.down_of_incoming ?_ ?_ ?_ ?_ ?_
    · rfl
    · split
      · exact .inr rfl
      · exact .inl rfl
    · exact fun hOut => if_pos (h.sending.mp hOut)
    · rfl
    · exact fun hRest => if_pos (of_decide_eq_true hRest)
  | await io hIn hBody hLock =>
    exact .inl ⟨q, l, { h with
      incoming := .inr (.inl rfl)
      lockIncoming := fun _ => rfl }⟩
  | received io hHold hCs hReceived => exact .inl ⟨q, l, h.received hHold hReceived⟩
  | tornDown io hHold hCs =>
    refine .inr (h.down_of_incoming (by rw [hHold.fields]) (.inl rfl) ?_ rfl (by simp))
    intro hOut
    rw [h.sending.mp hOut] at hCs
    cases hCs
  | reread io hIn =>
    exact .inl ⟨q, l, { h with
      incoming := .inl rfl
      lockIncoming := fun hLock => absurd (h.lockIncoming hLock) (by simp [hIn]) }⟩
  | sleep io hOut hEmpty =>
    have hHolding : c.outgoing.holding = false := by rcases hOut with hOut | hOut <;> rw [hOut] <;> rfl
    have hNot : c.outgoing ≠ .sending := by rcases hOut with hOut | hOut <;> simp [hOut]
    exact .inl ⟨q, l, { h with
      outgoing := rfl
      sending := ⟨by simp, fun hCs => absurd (h.sending.mpr hCs) hNot⟩
      lockOutgoing := fun hLock => absurd (h.lockOutgoing hLock) (by simp [hHolding])
      lockSending := fun h => by cases h
      sendMsg := by rw [h.sendMsg, hHolding]; rfl
      peeked := fun h => by cases h }⟩
  | starve io hOut hEmpty => exact .inr (h.down_of_outgoing rfl (.inr rfl))
  | @peek io m l' hOut hFirst hLock =>
    have hHolding := looking_holding hOut
    have hNot : c.outgoing ≠ .sending := by
      intro hSending
      rw [hSending] at hHolding
      cases hHolding
    exact .inl ⟨q, l, { h with
      outgoing := rfl
      sending := ⟨by simp, fun hCs => absurd (h.sending.mpr hCs) hNot⟩
      lockOutgoing := fun _ => rfl
      lockSending := fun h => by cases h
      sendMsg := by simp [Outgoing.holding, hFirst]
      peeked := fun _ => by simp [hFirst] }⟩
  | send io hTake hFirst hCs => exact .inl ⟨q, l, h.send hTake hFirst hCs _ _⟩
  | quit io hTake hFirst hCs => exact .inr (h.down_of_outgoing (by rw [hTake.fields]) (.inl rfl))
  | sent io hOut hSent hFirst hAlive hHolds => exact .inl ⟨_, _, h.sent hOut hAlive hHolds _ _⟩
  | failed io hOut hSent v hView =>
    apply Or.inr
    exact h.down_of_outgoing (by rfl) (.inr rfl)
  | delivered m hAdd hAlive hHolds => exact .inl ⟨_, _, h.delivered hAlive hHolds _⟩
  | full m hFull => exact .inl ⟨q, l, h⟩

end Live

/-! ## Connections that are down -/

/-- An event on a connection that is down does nothing, or makes the second close. -/
theorem retire_cases (c : Connection D) (e : HubEvent) :
    c.cs ≠ .closing ∧ c.retire e = c ∨
      c.cs = .closing ∧ ∃ cs, (cs = .error ∨ cs = .final) ∧ c.retire e = c.shut cs := by
  by_cases hCs : c.cs = .closing
  · refine .inr ⟨hCs, if e.closes then .final else .error, ?_, if_pos hCs⟩
    split
    · exact .inr rfl
    · exact .inl rfl
  · exact .inl ⟨hCs, if_neg hCs⟩

theorem retire_fields (c : Connection D) (e : HubEvent) :
    c.retire e = { c with cs := (c.retire e).cs, effects := (c.retire e).effects
                          past := { c.past with views := (c.retire e).past.views } } := by
  unfold retire
  split <;> rfl

theorem unlock_fields (c : Connection D) (side : Side) :
    c.unlock side = { c with lock := (c.unlock side).lock, fault := (c.unlock side).fault } := by
  unfold unlock
  split
  · rfl
  · cases side <;> rfl

theorem readUnlock_past (c : Connection D) : c.readUnlock.past = c.past := by
  rw [readUnlock, unlock_fields]

theorem writeUnlock_past (c : Connection D) : c.writeUnlock.past = c.past := by
  rw [writeUnlock, unlock_fields]

theorem retire_past (c : Connection D) (e : HubEvent) :
    (c.retire e).past = { c.past with views := (c.retire e).past.views } := by
  rw [retire_fields]

theorem retire_cs (c : Connection D) (e : HubEvent) :
    (c.retire e).cs = c.cs ∨
      c.cs = .closing ∧ ((c.retire e).cs = .error ∨ (c.retire e).cs = .final) := by
  rcases retire_cases c e with ⟨-, hEq⟩ | ⟨hClosing, cs, hCs, hEq⟩ <;> rw [hEq]
  · exact .inl rfl
  · exact .inr ⟨hClosing, hCs⟩

theorem outgoing_down_of_not_closes {o : Outgoing} (h : o.closes = false) : o.down = true := by
  cases o with
  | closing call rest => cases h
  | _ => rfl

namespace Down

/-- A step on a connection that is down leads to another one if the machine goes on to its end, and
the member goes with the close that waits for it. -/
theorem next (h : Down c) (hClient : c'.client = c.client)
    (hCs : c'.cs = c.cs ∨ c.cs = .closing ∧ (c'.cs = .error ∨ c'.cs = .final))
    (hIn : c'.incoming = c.incoming ∨ c'.incoming.down = true ∧ c'.incoming.closes = false)
    (hOut : c'.outgoing = c.outgoing ∨ c'.outgoing ≠ .sending ∧ c'.outgoing.closes = false)
    (hCloser : c'.fault = none → c'.member.isSome = (c'.incoming.closes || c'.outgoing.closes))
    (hMember : ∀ q, c'.member = some q → q.dead = true ∧ ∃ l, q.Holds l) : Down c' where
  client := hClient.trans h.client
  cs := by
    rcases hCs with hCs | ⟨-, hCs⟩
    · exact hCs ▸ h.cs
    · exact .inr hCs
  incoming := by
    rcases hIn with hIn | hIn
    · exact hIn ▸ h.incoming
    · exact hIn.1
  outgoing := by
    rcases hOut with hOut | hOut
    · exact hOut ▸ h.outgoing
    · exact outgoing_down_of_not_closes hOut.2
  rest := by
    intro hRest
    rcases hIn with hIn | hIn
    · have hError := h.rest (hIn ▸ hRest)
      rcases hCs with hCs | hCs
      · exact hCs.trans hError
      · exact absurd (hCs.1.symm.trans hError) (by decide)
    · rw [hRest] at hIn
      cases hIn.2
  sending := by
    intro hSending
    rcases hOut with hOut | hOut
    · have hError := h.sending (hOut ▸ hSending)
      rcases hCs with hCs | hCs
      · exact hCs.trans hError
      · exact absurd (hCs.1.symm.trans hError) (by decide)
    · exact absurd hSending hOut.1
  one := by
    rintro ⟨hBoth, hBoth'⟩
    rcases hIn with hIn | hIn
    · rcases hOut with hOut | hOut
      · exact h.one ⟨hIn ▸ hBoth, hOut ▸ hBoth'⟩
      · exact absurd hBoth' (by simp [hOut.2])
    · exact absurd hBoth (by simp [hIn.2])
  closer := hCloser
  member := hMember

/-- While one task closes, the other does not. -/
theorem outgoing_closes (h : Down c) {call : ReadCall} {rest : Bool}
    (hIn : c.incoming = .closing call rest) : c.outgoing.closes = false := by
  rw [← Bool.not_eq_true]
  exact fun hOut => h.one ⟨by rw [hIn]; rfl, hOut⟩

theorem incoming_closes (h : Down c) {call : WriteCall} {rest : Bool}
    (hOut : c.outgoing = .closing call rest) : c.incoming.closes = false := by
  rw [← Bool.not_eq_true]
  exact fun hIn => h.one ⟨hIn, by rw [hOut]; rfl⟩

section Tasks
variable {cs : Cs} {i : Incoming} {o : Outgoing} {lock : Option Side} {fault : Option Fault}
  {effects : List (Effect D)} {past : History D}

/-- The reading task goes on and no close waits in it. -/
theorem read (h : Down c) (hFault : c.fault = none) (hIn : c.incoming.closes = false)
    (hCs : cs = c.cs ∨ c.cs = .closing ∧ (cs = .error ∨ cs = .final)) (hDown : i.down = true)
    (hCloses : i.closes = false) {recvHdr recvBody : Option (Stackish.Tree D)} :
    Down { c with cs, incoming := i, lock, fault, effects, past, recvHdr, recvBody } := by
  refine h.next rfl hCs (.inr ⟨hDown, hCloses⟩) (.inl rfl) (fun _ => ?_) h.member
  simp only [hCloses]
  rw [h.closer hFault, hIn]

/-- The reading task is through with its close. -/
theorem readLoggedOut (h : Down c) {call : ReadCall} {rest : Bool}
    (hIn : c.incoming = .closing call rest)
    (hCs : cs = c.cs ∨ c.cs = .closing ∧ (cs = .error ∨ cs = .final)) (hDown : i.down = true)
    (hCloses : i.closes = false) :
    Down { c with cs, member := none, incoming := i, lock, fault, effects, past } := by
  refine h.next rfl hCs (.inr ⟨hDown, hCloses⟩) (.inl rfl) (fun _ => ?_) ?_
  · simp only [hCloses]
    exact (h.outgoing_closes hIn).symm
  · intro q hMember
    cases hMember

/-- The writing task goes on and no close waits in it. -/
theorem write (h : Down c) (hFault : c.fault = none) (hOut : c.outgoing.closes = false)
    (hCs : cs = c.cs ∨ c.cs = .closing ∧ (cs = .error ∨ cs = .final)) (hNot : o ≠ .sending)
    (hCloses : o.closes = false) {sendMsg : Option (Message D)} :
    Down { c with cs, outgoing := o, lock, fault, effects, past, sendMsg } := by
  refine h.next rfl hCs (.inl rfl) (.inr ⟨hNot, hCloses⟩) (fun _ => ?_) h.member
  simp only [hCloses]
  rw [h.closer hFault, hOut]

/-- The writing task is through with its close. -/
theorem writeLoggedOut (h : Down c) {call : WriteCall} {rest : Bool}
    (hOut : c.outgoing = .closing call rest) (hNot : o ≠ .sending) (hCloses : o.closes = false) :
    Down { c with member := none, outgoing := o, lock, fault, effects, past } := by
  refine h.next rfl (.inl rfl) (.inl rfl) (.inr ⟨hNot, hCloses⟩) (fun _ => ?_) ?_
  · simp only [hCloses]
    rw [h.incoming_closes hOut]
    rfl
  · intro q hMember
    cases hMember

end Tasks

theorem closes_of_looking {o : Outgoing} (h : o.looking = true) : o.closes = false := by
  cases o <;> simp_all [Outgoing.looking, Outgoing.closes]

/-- A connection that is down stays so. -/
theorem step (h : Down c) (hFault : c.fault = none) (hStep : DownStep c e c') : Down c' := by
  cases hStep with
  | unread io hIn =>
    rw [handled, retire_fields]
    exact h.read hFault (by rw [hIn]; rfl) (retire_cs c _) rfl rfl
  | hangUp io hIn hBody =>
    have hCs := retire_cs { c with recvHdr := io.packet.hdr, recvBody := none } .readClose
    rw [handled, retire_fields]
    exact h.read hFault (by rw [hIn]; rfl) hCs rfl rfl
  | await io hIn hBody hLock => exact h.read hFault (by rw [hIn]; rfl) (.inl rfl) rfl rfl
  | @msgRecv io c₁ hHold =>
    have hIn : c.incoming.closes = false := by
      cases hHold with
      | handed hIn _ => rw [hIn]; rfl
      | free hIn _ _ => rw [hIn]; rfl
    have hCs := retire_cs c₁ .msgRecv
    rw [readUnlock, unlock_fields, retire_fields]
    rw [hHold.fields] at hCs ⊢
    exact h.read hFault hIn hCs rfl rfl
  | unestablished io hIn hMember =>
    rw [handled, retire_fields]
    exact h.readLoggedOut hIn (retire_cs _ _) rfl rfl
  | @tornDown io q hIn hMember =>
    rw [readUnlock, unlock_fields]
    split
    · rw [retire_fields]
      exact h.readLoggedOut hIn (retire_cs _ _) rfl rfl
    · exact h.readLoggedOut hIn (.inl rfl) rfl rfl
  | readClosed io hIn hMember => exact h.readLoggedOut hIn (.inl rfl) rfl rfl
  | refused io hIn hMember => exact h.readLoggedOut hIn (.inl rfl) rfl rfl
  | ended io hOut hDone => exact h.write hFault hOut.2 (.inl rfl) (by simp) rfl
  | crashed io f hMember => exact { h with closer := by simp [crash] }
  | writeClose io hOut hMember =>
    have hCs := retire_cs { c with sendMsg := none } .writeClose
    rw [retire_fields]
    exact h.write hFault (closes_of_looking hOut) hCs (by simp) rfl
  | msgQueued io hOut hLock =>
    rw [writeUnlock, unlock_fields, retire_fields]
    exact h.write hFault (by rw [hOut]; rfl) (retire_cs _ _) (by simp) rfl
  | sent io hOut =>
    rw [writeUnlock, unlock_fields]
    exact h.write hFault (by rw [hOut]; rfl) (.inl rfl) (by simp) rfl
  | sendClosed io hOut hMember hCs v =>
    exact h.next rfl (.inl rfl) (.inl rfl) (.inl rfl) (by simp [crash])
      (by simp [crash, logout, seen])
  | sendDone io hOut hMember hDone =>
    rw [writeUnlock, unlock_fields]
    exact h.writeLoggedOut hOut (by simp) rfl
  | writeClosed io hOut hMember => exact h.writeLoggedOut hOut (by simp) rfl
  | @delivered m q q' l hMember hHolds hAdd hDead hHolds' =>
    exact { h with
      outgoing := (wake_down _).trans h.outgoing
      sending := fun hOut => h.sending ((wake_sending _).mp hOut)
      one := by
        rw [wake_closes]
        exact h.one
      closer := by
        intro hFault
        rw [wake_closes, ← h.closer hFault, hMember]
        rfl
      member := by
        rintro q'' ⟨⟩
        exact ⟨hDead, _, hHolds'⟩ }
  | undelivered m => exact h
  | finish hIn => exact { h with }

end Down

/-! ## Opening connections -/

theorem FirstStep.phase (hStep : FirstStep e c') : Phase c' := by
  cases hStep with
  | crashed io vs hViews => exact .crashed rfl rfl rfl rfl
  | failed io vs hViews =>
    exact .down {
      client := rfl
      cs := .inr (.inl rfl)
      incoming := rfl
      outgoing := rfl
      rest := fun h => by cases h
      sending := fun h => by cases h
      one := by simp [Incoming.closes]
      closer := fun _ => rfl
      member := fun q h => by cases h }
  | tuning io vs hViews =>
    refine .opening (.tuning ?_ rfl rfl rfl)
    constructor <;> rfl
  | undelivered m => exact .opened rfl

namespace Opening

theorem member_of_tuning (h : Opening c) (hCs : c.cs = .tuning) : c.past.added = [] := by
  cases h with
  | tuning h hCs hMember hAdded => exact hAdded
  | registering h hCs' => rw [hCs'] at hCs; cases hCs
  | refused h hCs' => rw [hCs'] at hCs; cases hCs

/-- The handshake goes on, makes a live connection, or ends it. -/
theorem step (h : Opening c) (hStep : OpeningStep c e c') : Phase c' := by
  obtain ⟨confirm, hYoung⟩ := h.young
  cases hStep with
  | confirmed io hCs vs hViews =>
    have hHolds : (MsgQueue.create memberMsgQueueLength : MsgQueue D).Holds c.past.added := by
      rw [h.member_of_tuning hCs]
      exact MsgQueue.holds_create (by decide)
    exact .opening (.registering { hYoung with incoming := rfl } rfl rfl rfl hHolds rfl rfl)
  | refused io hCs vs hViews =>
    exact .opening (.refused { hYoung with incoming := rfl } rfl rfl (h.member_of_tuning hCs))
  | failed io hMember established vs hViews =>
    exact .down {
      client := rfl
      cs := .inr (.inr rfl)
      incoming := rfl
      outgoing := by simp only [hYoung.outgoing]; rfl
      rest := fun h => by cases h
      sending := by simp [hYoung.outgoing]
      one := by simp [Incoming.closes]
      closer := fun _ => by simp only [hMember, hYoung.outgoing]; rfl
      member := fun q hSome => by rw [hMember] at hSome; cases hSome }
  | @unregistered io q hMember vs hViews =>
    have hHolds : ∃ l, q.Holds l := by
      cases h with
      | tuning _ _ hNone => rw [hNone] at hMember; cases hMember
      | refused _ _ hNone => rw [hNone] at hMember; cases hMember
      | registering _ _ hSome _ hHolds =>
        rw [hSome] at hMember
        cases hMember
        exact ⟨_, hHolds⟩
    exact .down {
      client := rfl
      cs := .inl rfl
      incoming := rfl
      outgoing := by simp only [hYoung.outgoing]; rfl
      rest := fun h => by cases h
      sending := by simp [hYoung.outgoing]
      one := by simp [hYoung.outgoing, Outgoing.closes]
      closer := fun _ => rfl
      member := by
        rintro q' ⟨⟩
        exact ⟨rfl, hHolds⟩ }
  | established io hCs vs hViews v hView =>
    cases h with
    | tuning _ hTuning => rw [hTuning] at hCs; cases hCs
    | refused _ hAborting => rw [hAborting] at hCs; cases hCs
    | registering hYoung _ hMember hAlive hHolds hConfirmed hLoggedIn =>
      exact .live {
        client := hYoung.client
        peer := hYoung.peer
        confirmed := hConfirmed
        loggedIn := hLoggedIn
        established := rfl
        member := hMember
        alive := hAlive
        holds := hHolds
        cs := .inl rfl
        incoming := .inl rfl
        outgoing := rfl
        sending := by simp
        lockIncoming := by simp [hYoung.lock]
        lockOutgoing := by simp [hYoung.lock]
        lockSending := fun h => by cases h
        recvMsg := fun _ => hYoung.recvMsg
        sendMsg := hYoung.sendMsg
        peeked := fun h => by cases h }
  | delivered m hMember hAdd hAlive hHolds =>
    cases h with
    | tuning _ _ hNone => rw [hNone] at hMember; cases hMember
    | refused _ _ hNone => rw [hNone] at hMember; cases hMember
    | registering hYoung hCs _ _ _ hConfirmed hLoggedIn =>
      exact .opening (.registering { hYoung with } hCs rfl hAlive hHolds hConfirmed hLoggedIn)
  | undelivered m => exact .opening h

end Opening

/-! ## All connections -/

/-- The phases follow each other. -/
theorem Phase.step (h : Phase c) (hStep : Step c c') : Phase c' := by
  obtain ⟨hFault, e, hReady, rfl⟩ := hStep
  cases h with
  | opened h =>
    subst h
    exact (opened_cases hReady).phase
  | opening h => exact h.step (h.step_cases hReady)
  | live h =>
    rcases h.step (h.step_cases hReady) with ⟨q', l', hLive⟩ | hDown
    · exact .live hLive
    · exact .down hDown
  | down h => exact .down (h.step hFault (h.step_cases hFault hReady))
  | crashed h => simp [hFault] at h

theorem Reachable.phase (h : Reachable c) : Phase c := by
  induction h with
  | refl => exact .opened rfl
  | tail _ hStep ih => exact ih.step hStep

/-- What every kind of step keeps holds of every connection that a run leads to. -/
theorem Reachable.invariant {P : Connection D → Prop} (hOpened : P opened)
    (hFirst : ∀ {e c'}, FirstStep e c' → P c')
    (hOpening : ∀ {c e c'}, Opening c → OpeningStep c e c' → P c → P c')
    (hLive : ∀ {c q l e c'}, Live c q l → LiveStep c q l e c' → P c → P c')
    (hDown : ∀ {c e c'}, Down c → Down c' → DownStep c e c' → P c → P c') (h : Reachable c) : P c := by
  induction h with
  | refl => exact hOpened
  | tail hRun hStep ih =>
    obtain ⟨hFault, e, hReady, rfl⟩ := hStep
    cases Reachable.phase hRun with
    | opened h =>
      subst h
      exact hFirst (opened_cases hReady)
    | opening h => exact hOpening h (h.step_cases hReady) ih
    | live h => exact hLive h (h.step_cases hReady) ih
    | down h =>
      have hCases := h.step_cases hFault hReady
      exact hDown h (h.step hFault hCases) hCases ih
    | crashed h => simp [hFault] at h

end Utu.Hub.Connection
