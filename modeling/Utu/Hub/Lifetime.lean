import Utu.Hub.Calm
import Utu.Hub.Closing

/-!
# The lifetime of messages

A message is counted by the queues it is in and by the connection that could
not service it. In an orderly and calm run the counts are right: nothing is
given back twice, and nothing that a queue holds is destroyed.
-/

namespace Utu.Hub
open Ledger Connection
set_option autoImplicit false
set_option linter.dupNamespace false

variable {D : Type}

namespace Hub
variable {h h' : Hub D} {a : Nat} {c c' : Connection D} {svc : Service D} {m : Message D} {ref : Nat}

/-- The references to a message that the connections hold. -/
def references (h : Hub D) (ref : Nat) : Nat := (h.conns.map (·.held ref)).sum

theorem references_set (hc : h.conns[a]? = some c) (c' : Connection D) (ref : Nat) :
    (h.moved a c').references ref + c.held ref = h.references ref + c'.held ref := by
  obtain ⟨hLt, rfl⟩ := List.getElem?_eq_some_iff.mp hc
  have hSplit : h.conns = h.conns.take a ++ h.conns[a] :: h.conns.drop (a + 1) := by simp
  have hSet : (h.moved a c').conns = h.conns.take a ++ c' :: h.conns.drop (a + 1) :=
    List.set_eq_take_append_cons_drop.trans (if_pos hLt)
  rw [references, references, hSet]
  conv_rhs => rw [hSplit]
  simp only [List.map_append, List.map_cons, List.sum_append, List.sum_cons]
  omega

theorem held_le_references (hc : h.conns[a]? = some c) (ref : Nat) : c.held ref ≤ h.references ref :=
  List.single_le_sum (by simp) _ (List.mem_map_of_mem (List.mem_of_getElem? hc))

/-! ## Counting -/

/-- The counts are right, and every connection is as a calm run leaves it. -/
structure Accounted (h : Hub D) : Prop where
  covers : h.refs.Covers refBits h.references
  reach : ∀ {a : Nat} {c : Connection D}, h.conns[a]? = some c → c.Reachable
  tidy : ∀ {a : Nat} {c : Connection D}, h.conns[a]? = some c → c.Tidy

/-- No connection has crashed. -/
def Faultless (h : Hub D) : Prop := ∀ {a : Nat} {c : Connection D}, h.conns[a]? = some c → c.fault = none

theorem Faultless.set (hFaultless : h.Faultless) (hFault : c'.fault = none) : (h.moved a c').Faultless := by
  intro b d hd
  rcases getElem?_set_cases hd with ⟨-, rfl⟩ | ⟨-, hd⟩
  · exact hFault
  · exact hFaultless hd

/-- What a delivery needs and keeps. -/
structure Delivering (h : Hub D) (ref : Nat) : Prop where
  accounted : h.Accounted
  faultless : h.Faultless
  alive : h.refs.Alive ref

theorem Delivering.sendMsg (hDelivering : h.Delivering m.ref) (b errno : Nat) :
    (h.sendMsg b m errno).1.Delivering m.ref := by
  obtain ⟨hAccounted, hFaultless, hAlive⟩ := hDelivering
  unfold Hub.sendMsg
  split
  · exact ⟨{ hAccounted with }, hFaultless, hAlive⟩
  · rename_i d hd
    split
    · exact ⟨{ hAccounted with }, hFaultless, hAlive⟩
    · rename_i q hMember
      split
      · exact ⟨hAccounted, hFaultless, hAlive⟩
      · rename_i hFree
        have hFault := hFaultless hd
        have hPhase := (hAccounted.reach hd).phase
        have hFull : q.isFull = false := by
          by_contra hFull
          simp [hFull] at hFree
        refine ⟨⟨?_, ?_, ?_⟩, hFaultless.set (by simpa using hFault), hAlive.retain⟩
        · refine hAccounted.covers.retain hAlive fun ref => ?_
          have hSet := references_set hd (d.deliver m) ref
          have hHeld := hPhase.held_deliver hMember hFull m ref
          show (h.moved b (d.deliver m)).references ref = _
          omega
        · intro i e he
          rcases getElem?_set_cases he with ⟨-, rfl⟩ | ⟨-, he⟩
          · exact (hAccounted.reach hd).tail ⟨hFault, .deliver m, trivial, rfl⟩
          · exact hAccounted.reach he
        · intro i e he
          rcases getElem?_set_cases he with ⟨-, rfl⟩ | ⟨-, he⟩
          · exact (hAccounted.tidy hd).step hPhase hFault (e := .deliver m) trivial trivial
          · exact hAccounted.tidy he

theorem Delivering.routeDeliver (hDelivering : h.Delivering m.ref) (members : List Delivery) :
    (routeDeliver m members h).Delivering m.ref := by
  induction members generalizing h with
  | nil => exact hDelivering
  | cons d rest ih =>
    have hSend := hDelivering.sendMsg d.member d.errno
    rw [Hub.routeDeliver]
    split
    · rename_i h' hEq
      rw [hEq] at hSend
      exact ih hSend
    · rename_i h' hEq
      rwa [hEq] at hSend

theorem Accounted.alloc (hAccounted : h.Accounted) : Accounted { h with refs := h.refs.alloc } :=
  { hAccounted with covers := hAccounted.covers.alloc }

theorem Accounted.sendResponse (hAccounted : h.Accounted) (hFaultless : h.Faultless) (a : Nat)
    (body : Stackish.Tree D) (errno : Nat) : (h.sendResponse a body errno).Accounted :=
  have hDelivering : Delivering { h with refs := h.refs.alloc } h.refs.next :=
    ⟨hAccounted.alloc, hFaultless, Counters.alive_alloc⟩
  (Delivering.sendMsg (m := ⟨h.refs.next, 0, body⟩) hDelivering a errno).accounted

theorem Delivering.serviceMessage (hDelivering : h.Delivering m.ref) (a : Nat) (svc : Service D) :
    (h.serviceMessage a m svc).Accounted := by
  unfold Hub.serviceMessage
  split
  · exact hDelivering.accounted
  · exact hDelivering.accounted
  · exact hDelivering.accounted.sendResponse hDelivering.faultless _ _ _
  · exact (hDelivering.routeDeliver _).accounted

/-! ## A step -/

section Step
variable {e : Event D} {fx : List (Effect D)} {push close : Bool}

theorem running_iff : h.running = true ↔ h.fault = none ∧ h.refs.misuse = none ∧ h.reused = false := by
  simp [running, and_assoc]

/-- Messages that are held are given back. -/
theorem covers_releases (a : Nat) (svc : Service D) (hFault : h.fault = none) (hReused : h.reused = false)
    {held : Nat → Nat}
    (ms : List (Message D)) (hBound : ∀ ref, (held ref + ms.countP (·.ref = ref)) < 2 ^ 15)
    (hCovers : h.refs.Covers refBits fun ref => held ref + ms.countP (·.ref = ref)) :
    ((ms.map Effect.release).foldl (effect a svc) h).refs.Covers refBits held := by
  induction ms generalizing h with
  | nil => exact hCovers
  | cons m ms ih =>
    have hRunning : h.running = true := running_iff.mpr ⟨hFault, hCovers.misuse, hReused⟩
    have hCount : ∀ ref, (m :: ms).countP (·.ref = ref) = ms.countP (·.ref = ref) + if m.ref = ref then 1 else 0 := by
      intro ref
      simp [List.countP_cons]
    simp only [hCount] at hBound hCovers
    simp only [List.map_cons, List.foldl_cons, effect, hRunning, if_true]
    refine ih hFault hReused (fun ref => Nat.lt_of_le_of_lt (by omega) (hBound ref)) ?_
    refine hCovers.release (fun ref => (Nat.add_assoc ..).symm) ?_
    have hSmall := hBound m.ref
    rw [refBits]
    omega

theorem conns_releases (a : Nat) (svc : Service D) (ms : List (Message D)) (h : Hub D) :
    ((ms.map Effect.release).foldl (effect a svc) h).conns = h.conns := by
  induction ms generalizing h with
  | nil => rfl
  | cons m ms ih =>
    rw [List.map_cons, List.foldl_cons, ih, effect]
    split <;> rfl

/-- One connection has moved on, with the counts. -/
theorem Accounted.set (hAccounted : h.Accounted) (hRun : c'.Reachable) (hTidy : c'.Tidy) {g : Hub D}
    (hConns : g.conns = (h.moved a c').conns)
    (hCovers : g.refs.Covers refBits (h.moved a c').references) : g.Accounted where
  covers := hCovers.congr fun ref => by rw [references, references, hConns]
  reach := by
    intro b d hd
    rw [hConns] at hd
    rcases getElem?_set_cases hd with ⟨-, rfl⟩ | ⟨-, hd⟩
    · exact hRun
    · exact hAccounted.reach hd
  tidy := by
    intro b d hd
    rw [hConns] at hd
    rcases getElem?_set_cases hd with ⟨-, rfl⟩ | ⟨-, hd⟩
    · exact hTidy
    · exact hAccounted.tidy hd

theorem Accounted.fail (hAccounted : h.Accounted) (f : Option Fault) : (h.fail f).Accounted := by
  cases f with
  | none => exact hAccounted
  | some f => exact { hAccounted with }

theorem Accounted.listed (hAccounted : h.Accounted) {push : Bool} : (h.listed a push).Accounted :=
  { hAccounted with }

/-- What a task does to messages keeps the counts right. -/
theorem Accounted.body (hAccounted : h.Accounted) (hRunning : h.running = true) (hFaultless : h.Faultless)
    (hBound : ∀ ref, h.references ref < 2 ^ 15) (hc : h.conns[a]? = some c) (hRun : c'.Reachable)
    (hTidy : c'.Tidy) (hReport : Report c c' e fx push close) (hBalanced : Balanced c c' fx)
    (hRef : ∀ ref, e.ref = some ref → ref = h.refs.next) (hWorks : e.works = svc.works) :
    (fx.foldl (effect a svc) (h.moved a c')).Accounted := by
  have hReferences : ∀ ref, (h.moved a c').references ref + releases fx ref =
      h.references ref + retains fx ref := by
    intro ref
    have hSet := references_set hc c' ref
    have hBalance := hBalanced ref
    omega
  have hMoved : (h.moved a c').running = true := hRunning
  have hAlloc : Hub.running { h.moved a c' with refs := (h.moved a c').refs.alloc } = true := hRunning
  obtain ⟨hFault, -, hReused⟩ := running_iff.mp hRunning
  have hBody := hReport.body
  cases hBody with
  | nothing =>
    exact hAccounted.set hRun hTidy rfl (hAccounted.covers.congr fun ref => (hReferences ref).symm)
  | unregister =>
    have hSame : [Effect.unregisterAll].foldl (effect a svc) (h.moved a c') = h.moved a c' := by
      simp [effect]
    rw [hSame]
    exact hAccounted.set hRun hTidy rfl (hAccounted.covers.congr fun ref => (hReferences ref).symm)
  | released ms =>
    have hHeld : ∀ ref, (h.moved a c').references ref + ms.countP (·.ref = ref) = h.references ref := by
      intro ref
      have hRef := hReferences ref
      rwa [releases_map, retains_map, Nat.add_zero] at hRef
    apply hAccounted.set hRun hTidy (conns_releases a svc ms _)
    exact covers_releases (h := h.moved a c') a svc hFault hReused ms (fun ref => hHeld ref ▸ hBound ref)
      (hAccounted.covers.congr fun ref => (hHeld ref).symm)
  | kept m hm =>
    simp only [List.foldl_cons, List.foldl_nil, effect, hMoved, hAlloc, if_true]
    refine hAccounted.set (a := a) hRun hTidy (by rfl) ?_
    refine hAccounted.covers.alloc.retain (hRef m.ref hm ▸ Counters.alive_alloc) fun ref => ?_
    simpa [releases, retains, List.countP_cons] using hReferences ref
  | serviced m hm hw =>
    simp only [List.foldl_cons, List.foldl_nil, effect, hMoved, hAlloc, if_true]
    have hNext : Accounted { h.moved a c' with refs := (h.moved a c').refs.alloc } := by
      refine hAccounted.set (a := a) hRun hTidy (by rfl) ?_
      refine hAccounted.covers.alloc.congr fun ref => ?_
      simpa [releases, retains, eq_comm] using hReferences ref
    have hFault' : c'.fault = none := (hReport.fault (.inr ⟨m, by simp⟩)).trans (hFaultless hc)
    exact Delivering.serviceMessage
      ⟨hNext, hFaultless.set hFault', hRef m.ref hm ▸ Counters.alive_alloc⟩ a svc
  | unserviced m hm hw =>
    have hSvc : svc = .failed := by
      rw [hw] at hWorks
      cases svc with
      | failed => rfl
      | callback response errno => cases hWorks
      | routed members => cases hWorks
    subst hSvc
    simp only [List.foldl_cons, List.foldl_nil, effect, hMoved, hAlloc, if_true, Hub.serviceMessage]
    refine hAccounted.set (a := a) hRun hTidy (by rfl) ?_
    refine hAccounted.covers.alloc.retain (hRef m.ref hm ▸ Counters.alive_alloc) fun ref => ?_
    simpa [releases, retains, List.countP_cons] using hReferences ref

theorem references_le (hc : h.conns[a]? = some c) (hBalanced : Balanced c c' fx) {ms : List (Message D)}
    (hFx : fx = ms.map .release) (ref : Nat) :
    (fx.foldl (effect a svc) (h.moved a c')).references ref ≤ h.references ref := by
  have hSet := references_set hc c' ref
  have hBalance := hBalanced ref
  rw [hFx, retains_map] at hBalance
  rw [hFx, references, conns_releases]
  change (h.moved a c').references ref ≤ _
  omega

theorem Phase.client_of_finished (hPhase : Phase c) (hFault : c.fault = none)
    (hFinished : c.incoming = .finished) : c.client = false := by
  cases hPhase with
  | opened h =>
    subst h
    cases hFinished
  | opening h => exact absurd hFinished h.not_pushed.2
  | live h => exact absurd hFinished h.not_finished
  | down h => exact h.client
  | crashed h => simp [hFault] at h

/-- The handler finishes its own connection: only the packet that was not serviced is given back. -/
theorem Accounted.handler_close (hAccounted : h.Accounted) (hBound : ∀ ref, h.references ref < 2 ^ 15)
    (hc : h.conns[a]? = some c) (hFault : c.fault = none) (hFinished : c.incoming = .finished)
    (hHead : h.closed.head? = some a) :
    (h.close a).Accounted ∧ (h.close a).conns = (h.moved a c.finish).conns := by
  have hRun := hAccounted.reach hc
  have hTidy := hAccounted.tidy hc
  have hMsg : c.sendMsg = none := hTidy.sendMsg (Phase.client_of_finished hRun.phase hFault hFinished)
  have hRun' : c.finish.Reachable := hRun.tail ⟨hFault, .finish, hFinished, rfl⟩
  have hTidy' : c.finish.Tidy := hTidy.step hRun.phase hFault (e := .finish) hFinished trivial
  have hHeld : ∀ ref, h.references ref =
      (h.moved a c.finish).references ref + c.recvMsg.toList.countP (·.ref = ref) := by
    intro ref
    have hSet := references_set hc c.finish ref
    have hFinish : c.held ref = c.finish.held ref + c.recvMsg.toList.countP (·.ref = ref) := by
      rw [held, held, List.countP_append, List.countP_append]
      rfl
    omega
  rw [close_eq hc hHead, hMsg]
  cases hRecv : c.recvMsg with
  | none =>
    refine ⟨hAccounted.set (a := a) hRun' hTidy' (by rfl) ?_, rfl⟩
    exact hAccounted.covers.congr fun ref => by simpa [hRecv] using hHeld ref
  | some m =>
    refine ⟨hAccounted.set (a := a) hRun' hTidy' (by rfl) ?_, rfl⟩
    refine hAccounted.covers.release (fun ref => ?_) ?_
    · simpa [hRecv, List.countP_cons] using hHeld ref
    · have hSmall := hBound m.ref
      rw [refBits]
      omega

/-- The connections whose handlers are through hold no packet. -/
def Settled (h : Hub D) : Prop :=
  ∀ {a : Nat} {c : Connection D}, h.conns[a]? = some c → c.incoming = .finished → c.recvMsg = none

/-- One step of a task, with all it does outside of its connection. -/
theorem Accounted.run (hSane : Sane h none) (hRunning : h.running = true) (hAccounted : h.Accounted)
    (hSettled : h.Settled) (hBound : ∀ ref, h.references ref < 2 ^ 15) (hc : h.conns[a]? = some c)
    (hReady : c.Ready e) (hTask : ∀ m, e ≠ .deliver m) (hNot : e ≠ .finish) (hCalm : c.Calm e)
    (hLate : (∃ io, e = .incoming io) → c.incoming = .closing .readClose false → c.done = true)
    (hRef : ∀ ref, e.ref = some ref → ref = h.refs.next) (hWorks : e.works = svc.works) :
    (h.run a c (c.step e) svc).Accounted ∧
      ((h.run a c (c.step e) svc).running = true → (h.run a c (c.step e) svc).Settled) := by
  obtain ⟨hRun, hFault⟩ := hSane.reach hc
  obtain ⟨fx, push, close, hReport, hBalanced⟩ := hRun.phase.report hFault hReady hTask hNot
  have hRun' : (c.step e).Reachable := hRun.tail ⟨hFault, e, hReady, rfl⟩
  have hTidy' : (c.step e).Tidy := (hAccounted.tidy hc).step hRun.phase hFault hReady hCalm
  generalize c.step e = c' at hReport hBalanced hRun' hTidy' ⊢
  have hBody := delivered_body a svc hReport.body (h.moved a c')
  have hGave : close = true → ∀ ref, (fx.foldl (effect a svc) (h.moved a c')).references ref < 2 ^ 15 := by
    intro hClose ref
    obtain ⟨ms, hFx⟩ := hReport.gives hClose
    exact Nat.lt_of_le_of_lt (references_le hc hBalanced hFx ref) (hBound ref)
  have hAccounted' := hAccounted.body hRunning (fun hd => (hSane.reach hd).2) hBound hc hRun' hTidy' hReport
    hBalanced hRef hWorks
  rw [run_eq hReport (hSane.not_listed hc hReport) rfl]
  generalize fx.foldl (effect a svc) (h.moved a c') = g at hBody hGave hAccounted' ⊢
  cases hGo : g.running with
  | false =>
    refine ⟨hAccounted'.fail _, fun hOn => ?_⟩
    rw [if_neg (by simp)] at hOn
    rw [(running_of_fail hOn).2] at hGo
    cases hGo
  | true =>
    rw [if_pos rfl]
    have hSettled' : ∀ {b : Nat} {d : Connection D}, g.conns[b]? = some d → (close = true → b ≠ a) →
        d.incoming = .finished → d.recvMsg = none := by
      intro b d hd hNot hFinished
      obtain ⟨d₀, hd₀, hQueued⟩ := hBody.conns hd
      rw [hQueued.fields.2.2.2.2]
      rw [hQueued.fields.2.1] at hFinished
      rcases getElem?_set_cases hd₀ with ⟨rfl, rfl⟩ | ⟨-, hd₀⟩
      · have hWas : c.incoming = .finished := by
          by_contra hWas
          exact hNot (hReport.ends.mpr ⟨hFinished, hWas⟩) rfl
        exact (hReport.settled hWas).trans (hSettled hc hWas)
      · exact hSettled hd₀ hFinished
    cases close with
    | false =>
      refine ⟨(Accounted.listed hAccounted').fail _, fun hOn => ?_⟩
      rw [(running_of_fail hOn).1]
      exact fun hd => hSettled' hd (by simp)
    | true =>
      have hNone := (hReport.fault (.inl rfl)).trans hFault
      have hHead : (g.listed a push).closed.head? = some a := by
        rw [hBody.listed.closed]
        exact hSane.head hc hReport rfl (pushed_of_close hReport rfl hLate)
      obtain ⟨d, hd, hQueued⟩ := hBody.own hc
      obtain ⟨hClosed, hConns⟩ := (Accounted.listed hAccounted').handler_close (hGave rfl) hd
        (hQueued.fields.1.trans hNone) (hQueued.fields.2.1.trans (hReport.ends.mp rfl).1) hHead
      rw [hNone]
      refine ⟨hClosed, fun _ b d' hd' hFinished => ?_⟩
      rw [if_pos rfl, Hub.fail, hConns] at hd'
      rcases getElem?_set_cases hd' with ⟨-, rfl⟩ | ⟨hb, hd'⟩
      · rfl
      · exact hSettled' hd' (fun _ => hb) hFinished

end Step

/-! ## Whole runs -/

/-- No task closes a connection while the writing task has a message, and none takes one in state
Aborting. -/
def Calm (h : Hub D) : Act D → Prop
  | .accept _ => True
  | .incoming a io svc => ∀ c ∈ h.conns[a]?, c.Calm (.incoming (h.answers io svc))
  | .outgoing a io => ∀ c ∈ h.conns[a]?, c.Calm (.outgoing io)

instance (h : Hub D) : (act : Act D) → Decidable (h.Calm act)
  | .accept _ => .isTrue trivial
  | .incoming a io svc =>
    inferInstanceAs (Decidable (∀ c ∈ h.conns[a]?, c.Calm (.incoming (h.answers io svc))))
  | .outgoing a io => inferInstanceAs (Decidable (∀ c ∈ h.conns[a]?, c.Calm (.outgoing io)))

/-- No message has 2^15 or more references. -/
def Bounded (h : Hub D) : Prop := ∀ ref < h.refs.next, h.references ref < 2 ^ 15

instance (h : Hub D) : Decidable h.Bounded := inferInstanceAs (Decidable (∀ ref < _, _))

/-- The steps of an orderly and calm run of few references. -/
def Careful (h : Hub D) (act : Act D) : Prop := h.Orderly act ∧ h.Calm act ∧ h.Bounded

instance (h : Hub D) (act : Act D) : Decidable (h.Careful act) := inferInstanceAs (Decidable (_ ∧ _ ∧ _))

theorem Reachable.orderly (hRun : h.Reachable Careful) : h.Reachable Orderly := by
  induction hRun with
  | refl => exact .refl
  | tail _ hStep ih =>
    obtain ⟨hRunning, act, hReady, hCareful, hEq⟩ := hStep
    exact ih.tail ⟨hRunning, act, hReady, hCareful.1, hEq⟩

theorem Accounted.bound (hAccounted : h.Accounted) (hBounded : h.Bounded) (ref : Nat) :
    h.references ref < 2 ^ 15 := by
  by_cases hRef : ref < h.refs.next
  · exact hBounded ref hRef
  · rw [hAccounted.covers.fresh (Nat.le_of_not_lt hRef)]
    decide

theorem held_opened (ref : Nat) : (opened : Connection D).held ref = 0 := rfl

theorem tidy_opened : (opened : Connection D).Tidy := by constructor <;> simp [opened]

/-- A connection that both tasks have left holds nothing. -/
theorem held_of_finished (hPhase : Phase c) (hFault : c.fault = none) (hFinished : c.incoming = .finished)
    (hMsg : c.recvMsg = none) (hOut : c.outgoing = .absent ∨ c.outgoing = .ended) (ref : Nat) :
    c.held ref = 0 := by
  have hMember : c.member = none := by
    cases hPhase with
    | opened h =>
      subst h
      rfl
    | opening h => exact absurd hFinished h.not_pushed.2
    | live h => exact absurd hFinished h.not_finished
    | down h =>
      have hCloser := h.closer hFault
      rcases hOut with hOut | hOut <;>
        simpa [hFinished, hOut, Incoming.closes, Outgoing.closes] using hCloser
    | crashed h => simp [hFault] at h
  simp [held, queued, hMember, hMsg]

theorem Accounted.newOrReuseConn (hSane : Sane h none) (hAccounted : h.Accounted) (hSettled : h.Settled)
    (hDone : ∀ b ∈ h.closed, ∀ c ∈ h.conns[b]?, c.incoming = .finished)
    (hLeft : ∀ b ∈ h.closed.head?, ∀ c ∈ h.conns[b]?, c.outgoing = .absent ∨ c.outgoing = .ended)
    (hNew : h.newOrReuseConn = (h', a)) :
    h'.Accounted ∧ h'.Settled ∧ ∀ ref, h'.references ref = h.references ref := by
  unfold Hub.newOrReuseConn at hNew
  split at hNew
  · cases hNew
    have hSame : ∀ ref, Hub.references { h with conns := h.conns ++ [opened] } ref = h.references ref := by
      intro ref
      simp [references, held_opened]
    refine ⟨⟨hAccounted.covers.congr fun ref => (hSame ref).symm, ?_, ?_⟩, ?_, hSame⟩
    · intro b d hd
      rcases getElem?_concat_cases hd with hd | ⟨-, rfl⟩
      · exact hAccounted.reach hd
      · exact .refl
    · intro b d hd
      rcases getElem?_concat_cases hd with hd | ⟨-, rfl⟩
      · exact hAccounted.tidy hd
      · exact tidy_opened
    · intro b d hd hFinished
      rcases getElem?_concat_cases hd with hd | ⟨-, rfl⟩
      · exact hSettled hd hFinished
      · rfl
  · rename_i b rest hClosed
    have hb : b ∈ h.closed := hClosed ▸ List.mem_cons_self
    have hLt := hSane.bound hb
    have hc := List.getElem?_eq_getElem hLt
    have hFinished := hDone b hb _ hc
    have hNone : ∀ ref, h.conns[b].held ref = 0 :=
      held_of_finished (hAccounted.reach hc).phase (hSane.reach hc).2 hFinished (hSettled hc hFinished)
        (hLeft b (by rw [hClosed]; rfl) _ hc)
    have hSame : ∀ ref, (h.moved b .opened).references ref = h.references ref := by
      intro ref
      have hSet := references_set hc opened ref
      rw [hNone, held_opened] at hSet
      exact hSet
    rw [hc] at hNew
    cases hNew
    refine ⟨hAccounted.set .refl tidy_opened (by rfl)
      (hAccounted.covers.congr fun ref => (hSame ref).symm), ?_, hSame⟩
    intro i d hd hFinished
    rcases getElem?_set_cases hd with ⟨-, rfl⟩ | ⟨-, hd⟩
    · rfl
    · exact hSettled hd hFinished

theorem Accounted.step (hSane : Sane h none) (hRunning : h.running = true) (hAccounted : h.Accounted)
    (hSettled : h.Settled) (hDisciplined : Disciplined h) {act : Act D} (hReady : h.Ready act)
    (hCareful : h.Careful act) :
    (h.step act).Accounted ∧ ((h.step act).running = true → (h.step act).Settled) := by
  obtain ⟨⟨hNext, hLate⟩, hCalm, hBounded⟩ := hCareful
  have hBound := hAccounted.bound hBounded
  cases act with
  | accept io =>
    have hDone : ∀ b ∈ h.closed, ∀ c ∈ h.conns[b]?, c.incoming = .finished :=
      fun b hb c hc => (hNext b hb c hc).resolve_right (by simp [Act.handler])
    simp only [Hub.step, accept]
    cases hNew : h.newOrReuseConn with
    | mk h' a =>
      obtain ⟨-, hSane', hc, -⟩ := hSane.newOrReuseConn hDisciplined hDone hNew
      obtain ⟨hAccounted', hSettled', hSame⟩ :=
        hAccounted.newOrReuseConn hSane hSettled hDone hLate hNew
      simp only
      split
      · rename_i hOn
        refine hAccounted'.run hSane' hOn hSettled' (fun ref => hSame ref ▸ hBound ref) hc trivial (by simp)
          (by simp) (fun _ hClosing => ?_) (fun _ hIn => ?_) (fun ref hRef => ?_) rfl
        · cases hClosing
        · cases hIn
        · exact (Option.some.inj hRef).symm
      · exact ⟨hAccounted', fun _ => hSettled'⟩
  | incoming a io svc =>
    obtain ⟨c, hc, hReady⟩ := hReady
    have hCalm := hCalm c hc
    have hLate := hLate c hc
    rw [Option.mem_def] at hc
    simp only [Hub.step, hc]
    exact hAccounted.run hSane hRunning hSettled hBound hc hReady (by simp) (by simp) hCalm (fun _ => hLate)
      (fun ref hRef => (Option.some.inj hRef).symm) rfl
  | outgoing a io =>
    obtain ⟨c, hc, hReady⟩ := hReady
    have hCalm := hCalm c hc
    rw [Option.mem_def] at hc
    simp only [Hub.step, hc]
    exact hAccounted.run hSane hRunning hSettled hBound hc hReady (by simp) (by simp) hCalm (by simp)
      (fun ref hRef => by cases hRef) rfl

theorem accounted_listening : (listening : Hub D).Accounted where
  covers := Counters.covers_empty
  reach := by simp [listening]
  tidy := by simp [listening]

/-- Every hub that a careful run leads to has right counts. -/
theorem Reachable.accounted (hRun : h.Reachable Careful) :
    h.Accounted ∧ (h.running = true → h.Settled) := by
  induction hRun with
  | refl => exact ⟨accounted_listening, fun _ => by simp [Settled, listening]⟩
  | tail hBefore hStep ih =>
    obtain ⟨hRunning, act, hReady, hCareful, rfl⟩ := hStep
    obtain ⟨hDisciplined, hSane⟩ := (Reachable.orderly hBefore).sane
    exact ih.1.step (hSane hRunning) hRunning (ih.2 hRunning) hDisciplined hReady hCareful

/-- In a careful run no count is below zero or touched after its message is gone, what has been given
back was taken before, and a message that is gone is in no queue. -/
theorem ref_counts_right (hRun : h.Reachable Careful) (hBounded : h.Bounded) :
    h.refs.misuse = none ∧ ∀ ref k, h.refs.counters[ref]? = some k →
      0 ≤ k.count ∧ k.given ≤ k.taken ∧ k.count = (k.taken : Int) - k.given ∧
      (k.freed = true → ∀ c ∈ h.conns, ∀ m ∈ c.queued, m.ref ≠ ref) := by
  have hAccounted := hRun.accounted.1
  have hCovers := hAccounted.covers
  refine ⟨hCovers.misuse, fun ref k hk => ?_⟩
  have hSmall := hAccounted.bound hBounded ref
  have hPaid := hCovers.paid hk
  have hCount : k.count = h.references ref := by
    rw [hCovers.count hk]
    apply Int.bmod_eq_of_le_mul_two
    · rw [refBits]
      omega
    · rw [refBits]
      omega
  refine ⟨by omega, by omega, by omega, fun hFreed c hMem m hm hRef => ?_⟩
  obtain ⟨a, hc⟩ := List.mem_iff_getElem?.mp hMem
  have hHeld : 0 < c.held ref := by
    rw [held, List.countP_pos_iff]
    exact ⟨m, List.mem_append_left _ hm, by simp [hRef]⟩
  have hLe := held_le_references hc ref
  rw [hCovers.freed hk hFreed] at hLe
  omega

/-- A client asks, is answered, and hangs up. -/
def exchange : List (Act Unit) :=
  connect 0 ++ request 0 1 (.callback (some .nil) 0) ++
    [.outgoing 0 quietIo, .outgoing 0 quietIo, .outgoing 0 quietIo, .incoming 0 quietIo .failed,
      .outgoing 0 quietIo, .incoming 0 quietIo .failed]

theorem ref_counts_right_exchange :
    let h := exchange.foldl step listening
    h.refs.counters = [⟨0, 0, 0, false⟩, ⟨0, 1, 1, true⟩] ∧ h.refs.misuse = none :=
  ⟨by decide +kernel, (ref_counts_right (.foldl (.refl : listening.Reachable Careful)
    (by decide +kernel : Hub.Allowed Careful listening exchange)) (by decide +kernel)).1⟩

/-- A message goes to two clients; one of them hangs up while it is being sent to it. -/
def interrupted : List (Act Unit) :=
  connect 0 ++ request 0 1 (.callback none 0) ++ connect 1 ++ request 1 1 (.callback none 0) ++
    connect 2 ++ request 2 1 (.routed [⟨0, 0⟩, ⟨1, 0⟩]) ++
    [.outgoing 1 quietIo, .incoming 1 quietIo .failed, .incoming 1 quietIo .failed]

/-- Its reference is given back with its queue and once more with `send.msg`, so that the message is
destroyed while it waits in the queue of the other one. -/
theorem ref_counts_wrong : ∃ h : Hub Unit, h.Reachable (fun h _ => h.Bounded) ∧ h.Bounded ∧
    h.refs.counters[2]? = some ⟨0, 2, 2, true⟩ ∧ ∃ c ∈ h.conns, ∃ m ∈ c.queued, m.ref = 2 :=
  ⟨interrupted.foldl step listening, .foldl .refl (by decide +kernel), by decide +kernel⟩

/-- In a careful run `ConnectionState_send_msg` is called in state Sending with a member, and both the
member and the message are there until `Peer_send` returns. -/
theorem sends_in_sending (hRun : h.Reachable Careful) : ∀ c ∈ h.conns,
    (∀ v ∈ c.past.sendCalls, v.cs = .sending ∧ v.member = true) ∧
    (c.outgoing = .sending → c.cs = .sending ∧ c.member.isSome = true ∧
      ∃ m, c.sendMsg = some m ∧ h.refs.Alive m.ref) := by
  intro c hMem
  have hAccounted := hRun.accounted.1
  obtain ⟨a, hc⟩ := List.mem_iff_getElem?.mp hMem
  have hTidy := hAccounted.tidy hc
  refine ⟨hTidy.sendCalls, fun hOut => ?_⟩
  cases (hAccounted.reach hc).phase with
  | opened h =>
    subst h
    cases hOut
  | opening h =>
    obtain ⟨confirm, hYoung⟩ := h.young
    rw [hYoung.outgoing] at hOut
    cases hOut
  | down h => simpa [hOut, Outgoing.holding] using hTidy.holding h.client
  | crashed _ _ _ hAbsent =>
    rw [hAbsent] at hOut
    cases hOut
  | @live q l h =>
    have hMsg := h.sendMsg
    rw [hOut] at hMsg
    obtain ⟨m, l', rfl⟩ := List.exists_cons_of_ne_nil (h.peeked (by rw [hOut]; rfl))
    refine ⟨h.sending.mp hOut, by rw [h.member]; rfl, m, hMsg, hAccounted.covers.alive ?_⟩
    refine Nat.lt_of_lt_of_le ?_ (held_le_references hc m.ref)
    rw [held, h.queued, List.countP_pos_iff]
    exact ⟨m, List.mem_append_left _ List.mem_cons_self, by simp⟩

/-- A client asks, and its answer is being sent. -/
def answering : List (Act Unit) :=
  connect 0 ++ request 0 1 (.callback (some .nil) 0) ++ [.outgoing 0 quietIo]

theorem sends_in_sending_answering : ∃ c ∈ (answering.foldl step listening).conns,
    c.outgoing = .sending ∧ c.member.isSome = true := by
  have hSending : ∃ c ∈ (answering.foldl step listening).conns, c.outgoing = .sending := by decide +kernel
  obtain ⟨c, hMem, hOut⟩ := hSending
  have hRun : (answering.foldl step listening).Reachable Careful :=
    .foldl .refl (by decide +kernel : Hub.Allowed Careful listening answering)
  exact ⟨c, hMem, hOut, ((sends_in_sending hRun c hMem).2 hOut).2.1⟩

/-- The client hangs up while its answer is being sent: the member goes, and the message with it. -/
theorem sends_without_member : ∃ h : Hub Unit, h.Reachable (fun _ _ => True) ∧
    ∃ c ∈ h.conns, c.outgoing = .sending ∧ c.cs = .error ∧ c.member = none ∧
      h.refs.counters[1]? = some ⟨0, 1, 1, true⟩ :=
  ⟨(answering ++ [Act.incoming 0 quietIo .failed, Act.incoming 0 quietIo .failed]).foldl step listening,
    .foldl .refl (by decide +kernel), by decide +kernel⟩

end Hub
end Utu.Hub
