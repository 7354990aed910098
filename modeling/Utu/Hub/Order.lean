import Utu.Hub.Phases

/-!
# Messages in order

What a connection services are the packets it has read, numbered from 1, until
the first one with another number. What it sends are the messages that were
added to its member's queue, numbered from 1 as well.
-/

namespace Utu.Hub.Connection
set_option autoImplicit false

variable {D : Type} {c c' : Connection D} {q q' : MsgQueue D} {l l' : List (Message D)} {e : Event D}

/-- The numbers of the first `n` messages. -/
def msgids (n : Nat) : List UInt64 := (List.range n).map fun i => UInt64.ofNat (i + 1)

theorem msgids_succ (n : Nat) : msgids (n + 1) = msgids n ++ [UInt64.ofNat (n + 1)] := by
  rw [msgids, List.range_succ, List.map_append]
  rfl

/-! ## What a step adds -/

/-- Nothing is serviced or sent, and the rest of the past is kept. -/
structure Quiet (c c' : Connection D) : Prop where
  serviced : c'.past.serviced = c.past.serviced
  sends : c'.past.sends = c.past.sends
  packets : c.past.packets <+: c'.past.packets
  added : c.past.added <+: c'.past.added

theorem Quiet.of_past (hPast : c'.past = { c.past with views := c'.past.views }) : Quiet c c' := by
  constructor <;> rw [hPast]

theorem Quiet.trans {c'' : Connection D} (h : Quiet c c') (h' : Quiet c' c'') : Quiet c c'' where
  serviced := h'.serviced.trans h.serviced
  sends := h'.sends.trans h.sends
  packets := h.packets.trans h'.packets
  added := h.added.trans h'.added

theorem quiet_retire (c : Connection D) (e : HubEvent) : Quiet c (c.retire e) := .of_past (retire_past c e)

theorem quiet_readUnlock (c : Connection D) : Quiet c c.readUnlock :=
  .of_past (by rw [readUnlock_past])

theorem quiet_writeUnlock (c : Connection D) : Quiet c c.writeUnlock :=
  .of_past (by rw [writeUnlock_past])

theorem Holding.quiet {p : Packet D} (h : Holding c p c') : Quiet c c' := by
  cases h with
  | handed => exact .of_past rfl
  | free => exact ⟨rfl, rfl, List.prefix_append _ _, List.prefix_rfl⟩

theorem Taking.quiet {m : Message D} (h : Taking c m c') : Quiet c c' := by
  cases h with
  | handed => exact .of_past rfl
  | free => exact .of_past rfl

/-- A connection that is down services and sends nothing more. -/
theorem DownStep.quiet (hStep : DownStep c e c') : Quiet c c' := by
  cases hStep with
  | unread io hIn => exact (quiet_retire c .readClose).trans (.of_past rfl)
  | hangUp io hIn hBody =>
    have hRead : Quiet c { c with recvHdr := io.packet.hdr, recvBody := none } := .of_past rfl
    exact (hRead.trans (quiet_retire _ .readClose)).trans (.of_past rfl)
  | await io hIn hBody hLock => exact ⟨rfl, rfl, List.prefix_append _ _, List.prefix_rfl⟩
  | msgRecv io hHold => exact (hHold.quiet.trans (quiet_retire _ _)).trans (quiet_readUnlock _)
  | @unestablished io q hIn hMember =>
    have hLogout : Quiet c (c.logout q) := .of_past rfl
    exact (hLogout.trans (quiet_retire _ .readClose)).trans (.of_past rfl)
  | @tornDown io q hIn hMember =>
    have hLogout : Quiet c (c.logout q) := .of_past rfl
    split
    · exact (hLogout.trans (quiet_retire _ .svcRecv)).trans (quiet_readUnlock _)
    · exact hLogout.trans (quiet_readUnlock _)
  | readClosed io hIn hMember => exact .of_past rfl
  | refused io hIn hMember => exact .of_past rfl
  | ended io hOut hDone => exact .of_past rfl
  | crashed io f hMember => exact .of_past rfl
  | writeClose io hOut hMember =>
    have hNone : Quiet c { c with sendMsg := none } := .of_past rfl
    exact (hNone.trans (quiet_retire _ .writeClose)).trans (.of_past rfl)
  | msgQueued io hOut hLock => exact (quiet_retire c _).trans (quiet_writeUnlock _)
  | sent io hOut => exact quiet_writeUnlock c
  | sendClosed io hOut hMember hClosing v => exact ⟨rfl, rfl, List.prefix_rfl, List.prefix_rfl⟩
  | @sendDone io q hOut hMember hDone =>
    have hLogout : Quiet c (c.logout q) := .of_past rfl
    exact hLogout.trans (quiet_writeUnlock _)
  | writeClosed io hOut hMember => exact .of_past rfl
  | delivered m hMember hHolds hAdd hDead hHolds' =>
    exact ⟨rfl, rfl, List.prefix_rfl, List.prefix_append _ _⟩
  | undelivered m => exact .of_past rfl
  | finish hIn => exact ⟨rfl, rfl, List.prefix_rfl, List.prefix_rfl⟩

theorem OpeningStep.quiet (hStep : OpeningStep c e c') :
    Quiet c c' ∧ c'.past.packets = c.past.packets := by
  cases hStep with
  | confirmed io hCs vs hViews => exact ⟨.of_past rfl, rfl⟩
  | refused io hCs vs hViews => exact ⟨.of_past rfl, rfl⟩
  | failed io hMember established vs hViews => exact ⟨.of_past rfl, rfl⟩
  | unregistered io hMember vs hViews => exact ⟨.of_past rfl, rfl⟩
  | established io hCs vs hViews v hView =>
    exact ⟨⟨rfl, rfl, List.prefix_rfl, List.prefix_rfl⟩, rfl⟩
  | delivered m hMember hAdd hAlive hHolds =>
    exact ⟨⟨rfl, rfl, List.prefix_rfl, List.prefix_append _ _⟩, rfl⟩
  | undelivered m => exact ⟨.of_past rfl, rfl⟩

/-- A live connection services nothing but a packet in Idle, and sends nothing but from Idle. -/
theorem LiveStep.quiet_of_aborting (hStep : LiveStep c q l e c') (hLive : Live c q l)
    (hCs : c.cs = .aborting) : Quiet c c' ∧ (c'.cs = .aborting ∨ c'.client = false) := by
  cases hStep with
  | hangUp io hIn hBody => exact ⟨.of_past rfl, .inr rfl⟩
  | await io hIn hBody hLock => exact ⟨⟨rfl, rfl, List.prefix_append _ _, List.prefix_rfl⟩, .inl hCs⟩
  | received io hHold hIdle => rw [hIdle] at hCs; cases hCs
  | tornDown io hHold => exact ⟨hHold.quiet.trans (.of_past rfl), .inr rfl⟩
  | reread io hIn => exact ⟨⟨rfl, rfl, List.prefix_rfl, List.prefix_rfl⟩, .inl hCs⟩
  | sleep io hOut hEmpty => exact ⟨.of_past rfl, .inl hCs⟩
  | starve io hOut hEmpty => exact ⟨.of_past rfl, .inr rfl⟩
  | peek io hOut hFirst hLock => exact ⟨.of_past rfl, .inl hCs⟩
  | send io hTake hFirst hIdle => rw [hIdle] at hCs; cases hCs
  | quit io hTake hFirst => exact ⟨hTake.quiet.trans (.of_past rfl), .inr rfl⟩
  | sent io hOut => rw [hLive.sending.mp hOut] at hCs; cases hCs
  | failed io hOut => rw [hLive.sending.mp hOut] at hCs; cases hCs
  | delivered m hAdd hAlive hHolds =>
    exact ⟨⟨rfl, rfl, List.prefix_rfl, List.prefix_append _ _⟩, .inl hCs⟩
  | full m hFull => exact ⟨.of_past rfl, .inl hCs⟩

/-! ## Services -/

/-- The packet that the reading task holds while it waits for the lock. -/
def pending (c : Connection D) : List (Option UInt64) :=
  if c.incoming = .locking then [Packet.msgid ⟨c.recvHdr, c.recvBody⟩] else []

/-- The services so far are the first packets, numbered from 1. -/
structure InOrder (c : Connection D) : Prop where
  serviced : c.past.serviced = msgids c.past.serviced.length
  packets : c.past.serviced.map some <+: c.past.packets

/-- Every packet but the one at hand has been serviced, and the next number is known. -/
structure Counting (c : Connection D) : Prop where
  packets : c.past.packets = c.past.serviced.map some ++ c.pending
  recvCount : c.recvCount = UInt64.ofNat (c.past.serviced.length + 1)

theorem InOrder.quiet (h : InOrder c) (hQuiet : Quiet c c') : InOrder c' := by
  constructor
  · rw [hQuiet.serviced]
    exact h.serviced
  · rw [hQuiet.serviced]
    exact h.packets.trans hQuiet.packets

/-- With the lock in hand, the packet to take in is the last one read. -/
theorem Holding.packets {p : Packet D} (h : Holding c p c') (hCount : Counting c) :
    c'.past.packets = c.past.serviced.map some ++ [Packet.msgid ⟨c'.recvHdr, c'.recvBody⟩] := by
  cases h with
  | handed hIn _ =>
    rw [hCount.packets, pending, if_pos hIn]
  | free hIn _ _ =>
    have hNone : c.pending = [] := if_neg (by simp [hIn])
    simp only [packetIn, hCount.packets, hNone, List.append_nil]

theorem Received.inOrder {io : Io D} {c₁ : Connection D} (h : Received io c c₁) (hOrder : InOrder c)
    (hPackets : c.past.packets = c.past.serviced.map some ++ [Packet.msgid ⟨c.recvHdr, c.recvBody⟩])
    (hRecvCount : c.recvCount = UInt64.ofNat (c.past.serviced.length + 1)) :
    InOrder c₁ ∧ (c₁.cs ≠ .aborting →
      c₁.past.packets = c₁.past.serviced.map some ∧
        c₁.recvCount = UInt64.ofNat (c₁.past.serviced.length + 1)) := by
  have hNext : ∀ m : Message D, Packet.msgid ⟨c.recvHdr, c.recvBody⟩ = some m.msgid →
      m.msgid = c.recvCount →
        c.past.serviced ++ [m.msgid] = msgids (c.past.serviced ++ [m.msgid]).length ∧
        c.past.packets = (c.past.serviced ++ [m.msgid]).map some := by
    intro m hMsgid hRight
    constructor
    · rw [List.length_append, List.length_singleton, msgids_succ, hRight, hRecvCount, ← hOrder.serviced]
    · rw [hPackets, hMsgid, List.map_append]
      rfl
  cases h with
  | malformed => exact ⟨⟨hOrder.serviced, hOrder.packets⟩, fun hNot => absurd rfl hNot⟩
  | misnumbered => exact ⟨⟨hOrder.serviced, hOrder.packets⟩, fun hNot => absurd rfl hNot⟩
  | unserviced m vs v hViews hView hRef hMsgid hRight =>
    obtain ⟨hServiced, hAll⟩ := hNext m hMsgid hRight
    exact ⟨⟨hServiced, hAll ▸ List.prefix_rfl⟩, fun hNot => absurd rfl hNot⟩
  | serviced m vs v hViews hView hRef hMsgid hRight =>
    obtain ⟨hServiced, hAll⟩ := hNext m hMsgid hRight
    refine ⟨⟨hServiced, hAll ▸ List.prefix_rfl⟩, fun _ => ⟨hAll, ?_⟩⟩
    simp only [List.length_append, List.length_singleton, hRecvCount]
    exact (UInt64.ofNat_add _ 1).symm

/-- The order of the services, with the count while packets can still be serviced. -/
structure Serving (c : Connection D) : Prop where
  order : InOrder c
  count : c.cs = .idle ∨ c.cs = .sending → Counting c

namespace Serving

theorem of_quiet (h : Serving c) (hQuiet : Quiet c c') (hCs : ¬ (c'.cs = .idle ∨ c'.cs = .sending)) :
    Serving c' := ⟨h.order.quiet hQuiet, fun hServing => absurd hServing hCs⟩

/-- Steps that concern only the sending side. -/
theorem of_same (h : Serving c) (hPast : c'.past.serviced = c.past.serviced ∧
      c'.past.packets = c.past.packets) (hPending : c'.pending = c.pending)
    (hCount : c'.recvCount = c.recvCount)
    (hCs : c'.cs = .idle ∨ c'.cs = .sending → c.cs = .idle ∨ c.cs = .sending) : Serving c' := by
  obtain ⟨hServiced, hPackets⟩ := hPast
  constructor
  · constructor <;> rw [hServiced]
    · exact h.order.serviced
    · rw [hPackets]
      exact h.order.packets
  · intro hServing
    have hCounting := h.count (hCs hServing)
    constructor
    · rw [hServiced, hPackets, hPending]
      exact hCounting.packets
    · rw [hServiced, hCount]
      exact hCounting.recvCount

theorem received (h : Serving c) {io : Io D} {c₁ c₂ : Connection D} (hHold : Holding c io.packet c₁)
    (hCs : c.cs = .idle) (hReceived : Received io c₁ c₂) (lock : Option Side) :
    Serving { c₂ with lock, incoming := .unlocked } := by
  have hCounting := h.count (.inl hCs)
  have hServiced : c₁.past.serviced = c.past.serviced := hHold.quiet.serviced
  have hRecvCount : c₁.recvCount = c.recvCount := by rw [hHold.fields]
  obtain ⟨hOrder, hCount⟩ := hReceived.inOrder (h.order.quiet hHold.quiet)
    (by rw [hServiced]; exact hHold.packets hCounting)
    (by rw [hServiced, hRecvCount]; exact hCounting.recvCount)
  refine ⟨{ hOrder with }, fun hServing => ?_⟩
  obtain ⟨hPackets, hNext⟩ := hCount (by rintro hAbort; simp [hAbort] at hServing)
  exact ⟨hPackets.trans (List.append_nil _).symm, hNext⟩

theorem liveStep (h : Serving c) (hLive : Live c q l) (hStep : LiveStep c q l e c') : Serving c' := by
  cases hStep with
  | hangUp io hIn hBody =>
    refine h.of_quiet (.of_past rfl) ?_
    by_cases hCs : c.cs = .sending <;> simp [suspend, hCs]
  | await io hIn hBody hLock =>
    have hNone : c.pending = [] := if_neg (by simp [hIn])
    refine ⟨h.order.quiet ⟨rfl, rfl, List.prefix_append _ _, List.prefix_rfl⟩, fun hServing => ?_⟩
    have hCounting := h.count hServing
    refine ⟨?_, hCounting.recvCount⟩
    simp only [packetIn, hCounting.packets, hNone, List.append_nil]
    rfl
  | received io hHold hCs hReceived => exact h.received hHold hCs hReceived _
  | tornDown io hHold hCs => exact h.of_quiet (hHold.quiet.trans (.of_past rfl)) (by simp [suspend])
  | reread io hIn =>
    refine h.of_same ⟨rfl, rfl⟩ ?_ rfl id
    simp [pending, hIn]
  | sleep io hOut hEmpty => exact h.of_same ⟨rfl, rfl⟩ rfl rfl id
  | starve io hOut hEmpty => exact h.of_quiet (.of_past rfl) (by simp [suspend])
  | peek io hOut hFirst hLock => exact h.of_same ⟨rfl, rfl⟩ rfl rfl id
  | send io hTake hFirst hCs =>
    rw [hTake.fields]
    exact h.of_same ⟨rfl, rfl⟩ rfl rfl fun _ => .inl hCs
  | quit io hTake hFirst hCs => exact h.of_quiet (hTake.quiet.trans (.of_past rfl)) (by simp [suspend])
  | sent io hOut => exact h.of_same ⟨rfl, rfl⟩ rfl rfl fun _ => .inr (hLive.sending.mp hOut)
  | failed io hOut hSent v hView => exact h.of_quiet (.of_past rfl) (by simp [suspend])
  | delivered m hAdd hAlive hHolds => exact h.of_same ⟨rfl, rfl⟩ rfl rfl id
  | full m hFull => exact h

theorem openingStep (h : Serving c) (hOpening : Opening c) (hStep : OpeningStep c e c') : Serving c' := by
  obtain ⟨hQuiet, hPackets⟩ := hStep.quiet
  obtain ⟨confirm, hYoung⟩ := hOpening.young
  have hEmpty : c'.past.serviced = [] := hQuiet.serviced.trans hYoung.serviced
  have hNone : c'.past.packets = [] := hPackets.trans hYoung.packets
  refine ⟨h.order.quiet hQuiet, fun hServing => ?_⟩
  have hRead : c'.pending = [] ∧ c'.recvCount = 1 := by
    cases hStep with
    | established => exact ⟨rfl, hYoung.recvCount⟩
    | confirmed => simp at hServing
    | refused => simp at hServing
    | failed => simp at hServing
    | unregistered => simp at hServing
    | delivered => exact ⟨if_neg (by simp [hYoung.incoming]), hYoung.recvCount⟩
    | undelivered => exact ⟨if_neg (by simp [hYoung.incoming]), hYoung.recvCount⟩
  constructor
  · rw [hNone, hEmpty, hRead.1]
    rfl
  · rw [hEmpty, hRead.2]
    rfl

theorem firstStep (hStep : FirstStep e c') : Serving c' := by
  cases hStep with
  | crashed => exact ⟨⟨rfl, List.prefix_rfl⟩, by simp⟩
  | failed => exact ⟨⟨rfl, List.prefix_rfl⟩, by simp⟩
  | tuning => exact ⟨⟨rfl, List.prefix_rfl⟩, by simp⟩
  | undelivered => exact ⟨⟨rfl, List.prefix_rfl⟩, by simp [opened]⟩

end Serving

theorem Down.not_serving (h : Down c) : ¬ (c.cs = .idle ∨ c.cs = .sending) := by
  rcases h.cs with hCs | hCs | hCs <;> simp [hCs]

theorem Reachable.serving (h : Reachable c) : Serving c :=
  h.invariant ⟨⟨rfl, List.prefix_rfl⟩, by simp [opened]⟩ .firstStep
    (fun hOpening hStep hServing => hServing.openingStep hOpening hStep)
    (fun hLive hStep hServing => hServing.liveStep hLive hStep)
    fun _ hDown hStep hServing => hServing.of_quiet hStep.quiet hDown.not_serving

/-! ## The end of the services -/

/-- Nothing will be serviced any more. -/
inductive Stopped (c : Connection D) : Prop
  | aborting {q : MsgQueue D} {l : List (Message D)} (h : Live c q l) (hCs : c.cs = .aborting)
  | down (h : Down c)
  | crashed (h : c.fault.isSome = true)

theorem Stopped.step (h : Stopped c) (hStep : Step c c') : Stopped c' ∧ Quiet c c' := by
  obtain ⟨hFault, e, hReady, rfl⟩ := hStep
  cases h with
  | aborting hLive hCs =>
    have hCases := hLive.step_cases hReady
    obtain ⟨hQuiet, hCs'⟩ := hCases.quiet_of_aborting hLive hCs
    refine ⟨?_, hQuiet⟩
    rcases hLive.step hCases with ⟨q', l', hLive'⟩ | hDown
    · rcases hCs' with hCs' | hClient
      · exact .aborting hLive' hCs'
      · rw [hLive'.client] at hClient
        cases hClient
    · exact .down hDown
  | down hDown =>
    have hCases := hDown.step_cases hFault hReady
    exact ⟨.down (hDown.step hFault hCases), hCases.quiet⟩
  | crashed h => simp [hFault] at h

theorem Stopped.run (h : Stopped c) (hRun : Relation.ReflTransGen Step c c') :
    c'.past.serviced = c.past.serviced := by
  have hBoth : Stopped c' ∧ c'.past.serviced = c.past.serviced := by
    induction hRun with
    | refl => exact ⟨h, rfl⟩
    | tail _ hStep ih =>
      obtain ⟨hStopped, hQuiet⟩ := ih.1.step hStep
      exact ⟨hStopped, hQuiet.serviced.trans ih.2⟩
  exact hBoth.2

theorem Received.grows {io : Io D} (h : Received io c c') :
    c.past.serviced <+: c'.past.serviced ∧ c'.past.packets = c.past.packets := by
  cases h with
  | malformed => exact ⟨List.prefix_rfl, rfl⟩
  | misnumbered => exact ⟨List.prefix_rfl, rfl⟩
  | unserviced => exact ⟨List.prefix_append _ _, rfl⟩
  | serviced => exact ⟨List.prefix_append _ _, rfl⟩

theorem LiveStep.grows (hStep : LiveStep c q l e c') :
    c.past.serviced <+: c'.past.serviced ∧ c.past.packets <+: c'.past.packets := by
  cases hStep with
  | received io hHold hCs hReceived =>
    obtain ⟨hServiced, hPackets⟩ := hReceived.grows
    rw [hHold.quiet.serviced] at hServiced
    refine ⟨hServiced, ?_⟩
    simp only [hPackets]
    exact hHold.quiet.packets
  | await => exact ⟨List.prefix_rfl, List.prefix_append _ _⟩
  | tornDown io hHold =>
    have hQuiet := hHold.quiet
    exact ⟨hQuiet.serviced.symm ▸ List.prefix_rfl, hQuiet.packets⟩
  | quit io hTake =>
    have hQuiet := hTake.quiet
    exact ⟨hQuiet.serviced.symm ▸ List.prefix_rfl, hQuiet.packets⟩
  | _ => exact ⟨List.prefix_rfl, List.prefix_rfl⟩

theorem Step.grows (hPhase : Phase c) (hStep : Step c c') :
    c.past.serviced <+: c'.past.serviced ∧ c.past.packets <+: c'.past.packets := by
  obtain ⟨hFault, e, hReady, rfl⟩ := hStep
  have of_quiet : ∀ {c' : Connection D}, Quiet c c' →
      c.past.serviced <+: c'.past.serviced ∧ c.past.packets <+: c'.past.packets :=
    fun h => ⟨h.serviced ▸ List.prefix_rfl, h.packets⟩
  cases hPhase with
  | opened h =>
    subst h
    exact ⟨List.nil_prefix, List.nil_prefix⟩
  | opening h => exact of_quiet (h.step_cases hReady).quiet.1
  | live h => exact (h.step_cases hReady).grows
  | down h => exact of_quiet (h.step_cases hFault hReady).quiet
  | crashed h => simp [hFault] at h

/-- The past is never taken back. -/
theorem Reachable.grows (h : Reachable c) (hRun : Relation.ReflTransGen Step c c') :
    c.past.serviced <+: c'.past.serviced ∧ c.past.packets <+: c'.past.packets := by
  induction hRun with
  | refl => exact ⟨List.prefix_rfl, List.prefix_rfl⟩
  | tail hRun hStep ih =>
    obtain ⟨hServiced, hPackets⟩ := Step.grows (Reachable.phase (h.trans hRun)) hStep
    exact ⟨ih.1.trans hServiced, ih.2.trans hPackets⟩

/-- What stands before the last service was a packet with its own number. -/
theorem InOrder.getElem? (h : InOrder c) {i : Nat} (hi : i < c.past.serviced.length) :
    c.past.packets[i]? = some (some (UInt64.ofNat (i + 1))) := by
  obtain ⟨rest, hRest⟩ := h.packets
  rw [← hRest, List.getElem?_append_left (by rwa [List.length_map]), h.serviced, List.getElem?_map,
    msgids, List.getElem?_map, List.getElem?_range hi]
  rfl

theorem InOrder.length_le (h : InOrder c) {i : Nat} {p : Option UInt64}
    (hPacket : c.past.packets[i]? = some p) (hWrong : p ≠ some (UInt64.ofNat (i + 1))) :
    c.past.serviced.length ≤ i := by
  by_contra hLt
  rw [h.getElem? (Nat.lt_of_not_le hLt)] at hPacket
  exact hWrong (Option.some.inj hPacket).symm

/-- With a wrong number among the packets, everything that will be serviced has been. -/
theorem Reachable.stopped_of_wrong (h : Reachable c) {i : Nat} {p : Option UInt64}
    (hPacket : c.past.packets[i]? = some p) (hWrong : p ≠ some (UInt64.ofNat (i + 1))) :
    i = c.past.serviced.length ∨ Stopped c := by
  obtain ⟨hOrder, hCount⟩ := h.serving
  have hLe := hOrder.length_le hPacket hWrong
  cases h.phase with
  | opened hOpened =>
    subst hOpened
    cases hPacket
  | opening hOpening =>
    obtain ⟨confirm, hYoung⟩ := hOpening.young
    rw [hYoung.packets] at hPacket
    cases hPacket
  | down hDown => exact .inr (.down hDown)
  | crashed hFault => exact .inr (.crashed hFault)
  | live hLive =>
    by_cases hCs : c.cs = .aborting
    · exact .inr (.aborting hLive hCs)
    · -- only the packet at hand has not been serviced
      have hCounting := hCount (by rcases hLive.cs with hCs | hCs | hCs <;> simp_all)
      have hLt := (List.getElem?_eq_some_iff.mp hPacket).1
      have hPending : c.pending.length ≤ 1 := by
        rw [pending]
        split <;> simp
      rw [hCounting.packets, List.length_append, List.length_map] at hLt
      exact .inl (by omega)

/-- The messages serviced on a connection are the first packets from its client, and their numbers
are 1, 2, 3 and so on. Once a packet with another number, or without one, has been read, no message
is serviced in what follows. -/
theorem serviced_inOrder {c : Connection D} (h : Reachable c) :
    c.past.serviced = msgids c.past.serviced.length ∧
      c.past.serviced.map some <+: c.past.packets ∧
      ∀ i p, c.past.packets[i]? = some p → p ≠ some (UInt64.ofNat (i + 1)) →
        ∀ c', Relation.ReflTransGen Step c c' → c'.past.serviced = c.past.serviced := by
  refine ⟨h.serving.order.serviced, h.serving.order.packets, fun i p hPacket hWrong c' hRun => ?_⟩
  rcases h.stopped_of_wrong hPacket hWrong with hLast | hStopped
  · obtain ⟨hServiced, rest, hRest⟩ := h.grows hRun
    have hPacket' : c'.past.packets[i]? = some p := by
      rw [← hRest, List.getElem?_append_left (List.getElem?_eq_some_iff.mp hPacket).1, hPacket]
    have hLe := (Reachable.serving (h.trans hRun)).order.length_le hPacket' hWrong
    exact (hServiced.eq_of_length_le (hLast ▸ hLe)).symm
  · exact hStopped.run hRun

/-- Packet 1 is read and serviced, and packet 3 comes next. -/
def skipping : List (Event Unit) :=
  greeting ++ [.incoming { quietIo with packet := packetOf 1 }, .incoming quietIo,
    .incoming { quietIo with packet := packetOf 3 }]

theorem serviced_skipping :
    (skipping.foldl step opened).past.packets = [some 1, some 3] ∧
      ∀ c, Relation.ReflTransGen Step (skipping.foldl step opened) c → c.past.serviced = [1] := by
  have hRun : Reachable (skipping.foldl step (opened : Connection Unit)) :=
    Reachable.foldl .refl (by decide +kernel)
  have hPackets : (skipping.foldl step opened).past.packets = [some 1, some 3] := by decide +kernel
  have hServiced : (skipping.foldl step opened).past.serviced = [1] := by decide +kernel
  refine ⟨hPackets, fun c hFurther => ?_⟩
  rw [← hServiced]
  exact (serviced_inOrder hRun).2.2 1 (some 3) (by rw [hPackets]; rfl) (by decide) c hFurther

/-! ## Sends -/

/-- What has been sent are the first messages that were added, numbered from 1. -/
structure Posted (c : Connection D) : Prop where
  messages : c.past.sends.map Prod.snd <+: c.past.added
  msgids : c.past.sends.map Prod.fst = msgids c.past.sends.length

/-- The messages in the queue are those that were added and not sent, and in Sending the one that is
being sent. -/
structure Sending (c : Connection D) (l : List (Message D)) : Prop where
  idle : c.cs ≠ .sending → c.past.added = c.past.sends.map Prod.snd ++ l
  sending : c.cs = .sending → ∃ done m l', l = m :: l' ∧ c.past.sends.map Prod.snd = done ++ [m] ∧
    c.past.added = done ++ l
  sendCount : c.sendCount = UInt64.ofNat (c.past.sends.length + 1)

structure Posting (c : Connection D) : Prop where
  posted : Posted c
  sending : ∀ q l, Live c q l → Sending c l

theorem Live.list_eq (h : Live c q l) (hMember : c.member = some q') (hHolds : q'.Holds l') : l = l' := by
  obtain rfl := Option.some.inj (h.member.symm.trans hMember)
  exact Ring.Buffer.Holds.unique h.holds hHolds

theorem Posted.keep (h : Posted c) (hSends : c'.past.sends = c.past.sends)
    (hAdded : c.past.added <+: c'.past.added) : Posted c' := by
  constructor
  · rw [hSends]
    exact h.messages.trans hAdded
  · rw [hSends]
    exact h.msgids

namespace Posting

theorem of_closed (h : Posting c) (hQuiet : Quiet c c') (hClient : c'.client = false) : Posting c' := by
  refine ⟨h.posted.keep hQuiet.sends hQuiet.added, fun q l hLive => ?_⟩
  rw [hLive.client] at hClient
  cases hClient

/-- Steps that concern only the reading side. -/
theorem of_same (h : Posting c) (hLive : Live c q l) (hSends : c'.past.sends = c.past.sends)
    (hAdded : c'.past.added = c.past.added) (hCount : c'.sendCount = c.sendCount)
    (hMember : c'.member = c.member) (hCs : c'.cs = .sending ↔ c.cs = .sending) : Posting c' := by
  refine ⟨h.posted.keep hSends (hAdded ▸ List.prefix_rfl), fun q' l' hLive' => ?_⟩
  obtain rfl := hLive'.list_eq (hMember.trans hLive.member) hLive.holds
  have hSending := h.sending q l' hLive
  constructor
  · rw [hAdded, hSends, ne_eq, hCs]
    exact hSending.idle
  · rw [hAdded, hSends, hCs]
    exact hSending.sending
  · rw [hCount, hSends]
    exact hSending.sendCount

theorem received (h : Posting c) (hLive : Live c q l) {io : Io D} {c₁ c₂ : Connection D}
    (hHold : Holding c io.packet c₁) (hCs : c.cs = .idle) (hReceived : Received io c₁ c₂)
    (lock : Option Side) : Posting { c₂ with lock, incoming := .unlocked } := by
  have hSame : c₂.past.sends = c₁.past.sends ∧ c₂.past.added = c₁.past.added := by
    cases hReceived <;> exact ⟨rfl, rfl⟩
  obtain ⟨hCs₂, hEq⟩ := hReceived.fields
  have hCs' : c₂.cs = .sending ↔ c.cs = .sending := by
    rcases hCs₂ with ⟨hCs₂, -⟩ | hCs₂ <;> simp [hCs, hCs₂]
  have hCount : c₂.sendCount = c.sendCount ∧ c₂.member = c.member := by
    rw [hEq, hHold.fields]
    exact ⟨rfl, rfl⟩
  have hAdded : c₁.past.added = c.past.added := by rw [hHold.fields]
  exact h.of_same hLive (hSame.1.trans hHold.quiet.sends) (hSame.2.trans hAdded) hCount.1 hCount.2 hCs'

theorem send (h : Posting c) (hLive : Live c q l) {m : Message D} (hTake : Taking c m c')
    (hFirst : l = m :: l') (hCs : c.cs = .idle) {past : History D} (hAdded : past.added = c.past.added)
    (hSends : past.sends = c.past.sends ++ [(c.sendCount, m)]) :
    Posting { c' with cs := .sending, sendCount := c.sendCount + 1, outgoing := .sending, past } := by
  have hSending := h.sending q l hLive
  have hAll := hSending.idle (by simp [hCs])
  have hMember : c'.member = c.member := by rw [hTake.fields]
  refine ⟨⟨?_, ?_⟩, fun q' l'' hLive' => ?_⟩
  · simp only [hSends, hAdded, hAll, hFirst, List.map_append]
    exact ⟨l', by simp⟩
  · simp only [hSends, List.map_append, List.length_append, List.length_singleton, msgids_succ,
      h.posted.msgids, hSending.sendCount]
    rfl
  · obtain rfl := hLive'.list_eq (hMember.trans hLive.member) hLive.holds
    constructor
    · exact fun hNot => absurd rfl hNot
    · exact fun _ => ⟨_, m, l', hFirst, by simp only [hSends, List.map_append]; rfl,
        hAdded.trans hAll⟩
    · simp only [hSends, List.length_append, List.length_singleton, hSending.sendCount]
      exact (UInt64.ofNat_add _ 1).symm

theorem sent (h : Posting c) (hLive : Live c q l) {m : Message D} (hOut : c.outgoing = .sending)
    (hFirst : l = m :: l') (hHolds : q'.Holds l') (hCs : c'.cs = .idle) (hMember : c'.member = some q')
    (hCount : c'.sendCount = c.sendCount) (hPast : c'.past = { c.past with views := c'.past.views }) :
    Posting c' := by
  have hQuiet := Quiet.of_past hPast
  have hAdded : c'.past.added = c.past.added := by rw [hPast]
  have hSending := h.sending q l hLive
  refine ⟨h.posted.keep hQuiet.sends hQuiet.added, fun q'' l'' hLive' => ?_⟩
  obtain rfl := hLive'.list_eq hMember hHolds
  obtain ⟨done, m', rest, hList, hSent, hAll⟩ := hSending.sending (hLive.sending.mp hOut)
  obtain ⟨rfl, rfl⟩ := List.cons.inj (hList.symm.trans hFirst)
  constructor
  · intro _
    rw [hAdded, hQuiet.sends, hAll, hSent, hList, List.append_assoc]
    rfl
  · intro hBack
    rw [hCs] at hBack
    cases hBack
  · rw [hCount, hQuiet.sends]
    exact hSending.sendCount

theorem delivered (h : Posting c) (hLive : Live c q l) {m : Message D} (hHolds : q'.Holds (l ++ [m])) :
    Posting { c with member := some q', outgoing := c.outgoing.wake
                     past := { c.past with added := c.past.added ++ [m] } } := by
  have hSending := h.sending q l hLive
  refine ⟨h.posted.keep rfl (List.prefix_append _ _), fun q'' l'' hLive' => ?_⟩
  obtain rfl := hLive'.list_eq rfl hHolds
  constructor
  · intro hCs
    simp only [hSending.idle hCs, List.append_assoc]
  · intro hCs
    obtain ⟨done, m', rest, hList, hSent, hAll⟩ := hSending.sending hCs
    refine ⟨done, m', rest ++ [m], by rw [hList]; rfl, hSent, ?_⟩
    simp only [hAll, List.append_assoc]
  · exact hSending.sendCount

theorem liveStep (h : Posting c) (hLive : Live c q l) (hStep : LiveStep c q l e c') : Posting c' := by
  cases hStep with
  | hangUp io hIn hBody => exact h.of_closed (.of_past rfl) rfl
  | await io hIn hBody hLock =>
    exact h.of_same hLive rfl rfl rfl rfl .rfl
  | received io hHold hCs hReceived => exact h.received hLive hHold hCs hReceived _
  | tornDown io hHold hCs => exact h.of_closed (hHold.quiet.trans (.of_past rfl)) rfl
  | reread io hIn => exact h.of_same hLive rfl rfl rfl rfl .rfl
  | sleep io hOut hEmpty => exact h.of_same hLive rfl rfl rfl rfl .rfl
  | starve io hOut hEmpty => exact h.of_closed (.of_past rfl) rfl
  | peek io hOut hFirst hLock => exact h.of_same hLive rfl rfl rfl rfl .rfl
  | send io hTake hFirst hCs => exact h.send hLive hTake hFirst hCs rfl rfl
  | quit io hTake hFirst hCs => exact h.of_closed (hTake.quiet.trans (.of_past rfl)) rfl
  | sent io hOut hSent hFirst hAlive hHolds => exact h.sent hLive hOut hFirst hHolds rfl rfl rfl rfl
  | failed io hOut hSent v hView => exact h.of_closed (.of_past rfl) rfl
  | delivered m hAdd hAlive hHolds => exact h.delivered hLive hHolds
  | full m hFull => exact h

theorem openingStep (h : Posting c) (hOpening : Opening c) (hStep : OpeningStep c e c') : Posting c' := by
  obtain ⟨hQuiet, -⟩ := hStep.quiet
  obtain ⟨confirm, hYoung⟩ := hOpening.young
  refine ⟨h.posted.keep hQuiet.sends hQuiet.added, fun q l hLive => ?_⟩
  cases hStep with
  | established io hCs =>
    cases hOpening with
    | tuning _ hTuning => rw [hTuning] at hCs; cases hCs
    | refused _ hAborting => rw [hAborting] at hCs; cases hCs
    | registering _ _ hMember _ hHolds =>
      obtain rfl := hLive.list_eq hMember hHolds
      constructor
      · exact fun _ => by simp only [hYoung.sends]; rfl
      · intro hSending
        cases hSending
      · simp only [hYoung.sends, hYoung.sendCount]
        rfl
  | confirmed => rcases hLive.incoming with hIn | hIn | hIn <;> cases hIn
  | refused => rcases hLive.incoming with hIn | hIn | hIn <;> cases hIn
  | failed => cases hLive.client
  | unregistered => cases hLive.client
  | delivered =>
    have hIn : c.incoming = .reading ∨ c.incoming = .locking ∨ c.incoming = .unlocked := hLive.incoming
    simp [hYoung.incoming] at hIn
  | undelivered =>
    have hIn := hLive.incoming
    simp [hYoung.incoming] at hIn

theorem opened : Posting (opened : Connection D) := by
  refine ⟨⟨List.prefix_rfl, rfl⟩, fun q l hLive => ?_⟩
  rcases hLive.incoming with hIn | hIn | hIn <;> cases hIn

theorem firstStep (hStep : FirstStep e c') : Posting c' := by
  cases hStep with
  | undelivered => exact .opened
  | _ =>
    refine ⟨⟨List.prefix_rfl, rfl⟩, fun q l hLive => ?_⟩
    rcases hLive.incoming with hIn | hIn | hIn <;> cases hIn

end Posting

theorem Reachable.posting (h : Reachable c) : Posting c :=
  h.invariant .opened .firstStep (fun hOpening hStep hPosting => hPosting.openingStep hOpening hStep)
    (fun hLive hStep hPosting => hPosting.liveStep hLive hStep)
    fun _ hDown hStep hPosting => hPosting.of_closed hStep.quiet hDown.client

/-- The messages passed to `Peer_send` are the first messages that were added to the member's queue,
none left out or repeated, and their headers count 1, 2, 3 and so on. -/
theorem sends_inOrder {c : Connection D} (h : Reachable c) :
    c.past.sends.map Prod.snd <+: c.past.added ∧
      c.past.sends.map Prod.fst = msgids c.past.sends.length :=
  ⟨h.posting.posted.messages, h.posting.posted.msgids⟩

/-- Two messages are queued, and the first one is sent. -/
def posting : List (Event Unit) :=
  greeting ++ [.deliver (noteOf 7), .deliver (noteOf 8), .outgoing quietIo]

theorem sends_posting :
    (posting.foldl step opened).past.sends = [(1, noteOf 7)] ∧
      [noteOf 7] <+: (posting.foldl step opened).past.added := by
  have hRun : Reachable (posting.foldl step (opened : Connection Unit)) :=
    Reachable.foldl .refl (by decide +kernel)
  have hSends : (posting.foldl step opened).past.sends = [(1, noteOf 7)] := by decide +kernel
  have hOrder := (sends_inOrder hRun).1
  rw [hSends] at hOrder
  exact ⟨hSends, hOrder⟩

end Utu.Hub.Connection
