import Utu.Hub.Lifetime
import Utu.Hub.Order

/-!
# The order of the messages

A message is passed on in the step that reads it, and so is the answer to it.
So the queues of all members take the messages in the order in which the hub
made them, and no two clients are sent two messages in opposite orders, however
the tasks run and however the connections are closed.
-/

namespace Utu.Hub
open Ledger
set_option autoImplicit false
set_option linter.dupNamespace false

variable {D : Type}

/-! ## One connection -/

namespace Connection
variable {c c' : Connection D} {q : MsgQueue D} {l : List (Message D)} {e : Event D} {m : Message D} {n n' : Nat}

theorem retire_added (c : Connection D) (e : HubEvent) : (c.retire e).past.added = c.past.added := by
  rw [retire_past]

theorem Received.added {io : Io D} (h : Received io c c') : c'.past.added = c.past.added := by
  cases h <;> rfl

theorem DownStep.added (hStep : DownStep c e c') (hTask : ∀ m, e ≠ .deliver m) : c'.past.added = c.past.added := by
  cases hStep with
  | unread io hIn => exact retire_added c _
  | hangUp io hIn hBody => exact retire_added _ _
  | msgRecv io hHold => rw [readUnlock_past, retire_added, hHold.fields]
  | unestablished io hIn hMember => exact retire_added _ _
  | tornDown io hIn hMember =>
    rw [readUnlock_past]
    split
    · exact retire_added _ _
    · rfl
  | writeClose io hOut hMember => exact retire_added _ _
  | msgQueued io hOut hLock => rw [writeUnlock_past, retire_added]
  | sent io hOut => rw [writeUnlock_past]
  | sendDone io hOut hMember hDone =>
    rw [writeUnlock_past]
    rfl
  | delivered m => exact absurd rfl (hTask m)
  | undelivered m => exact absurd rfl (hTask m)
  | _ => rfl

theorem OpeningStep.added (hStep : OpeningStep c e c') (hTask : ∀ m, e ≠ .deliver m) :
    c'.past.added = c.past.added := by
  cases hStep with
  | delivered m => exact absurd rfl (hTask m)
  | undelivered m => exact absurd rfl (hTask m)
  | _ => rfl

theorem LiveStep.added (hStep : LiveStep c q l e c') (hTask : ∀ m, e ≠ .deliver m) :
    c'.past.added = c.past.added := by
  cases hStep with
  | received io hHold hCs hReceived => rw [hReceived.added, hHold.fields]
  | tornDown io hHold hCs =>
    rw [hHold.fields]
    rfl
  | quit io hTake hFirst hCs =>
    rw [hTake.fields]
    rfl
  | delivered m => exact absurd rfl (hTask m)
  | full m => exact absurd rfl (hTask m)
  | _ => rfl

theorem FirstStep.added (hStep : FirstStep e c') : c'.past.added = [] := by
  cases hStep <;> rfl

theorem Phase.added (h : Phase c) (hFault : c.fault = none) (hReady : c.Ready e) (hTask : ∀ m, e ≠ .deliver m) :
    (c.step e).past.added = c.past.added := by
  cases h with
  | opened h =>
    subst h
    exact (opened_cases hReady).added
  | opening h => exact (h.step_cases hReady).added hTask
  | live h => exact (h.step_cases hReady).added hTask
  | down h => exact (h.step_cases hFault hReady).added hTask
  | crashed h => simp [hFault] at h

/-- What was queued for a connection was made in this order, and before the message `n`. -/
structure Numbered (n : Nat) (c : Connection D) : Prop where
  rising : c.past.added.Pairwise fun x y => x.ref ≤ y.ref
  below : ∀ x ∈ c.past.added, x.ref < n

theorem Numbered.of_added (h : Numbered n c) (hAdded : c'.past.added = c.past.added) (hLe : n ≤ n') :
    Numbered n' c' := by
  refine ⟨hAdded ▸ h.rising, fun x hx => ?_⟩
  rw [hAdded] at hx
  exact Nat.lt_of_lt_of_le (h.below x hx) hLe

theorem Numbered.deliver (h : Numbered n c) (hLast : m.ref + 1 = n) : Numbered n (c.deliver m) := by
  unfold Connection.deliver
  split
  · exact h
  split
  · refine ⟨List.pairwise_append.mpr ⟨h.rising, List.pairwise_singleton _ _, fun x hx y hy => ?_⟩, fun x hx => ?_⟩
    · rw [List.mem_singleton.mp hy]
      have hBelow := h.below x hx
      omega
    · rcases List.mem_append.mp hx with hx | hx
      · exact h.below x hx
      · rw [List.mem_singleton.mp hx]
        omega
  · exact h

/-- What holds of a connection in every run, also in one that finishes it before its handler is through. -/
structure Kept (n : Nat) (c : Connection D) : Prop where
  phase : Phase c
  posting : Posting c
  numbered : Numbered n c

theorem kept_opened : Kept n (opened : Connection D) :=
  ⟨.opened rfl, .opened, List.Pairwise.nil, fun _ hx => absurd hx List.not_mem_nil⟩

theorem Posting.step (h : Posting c) (hPhase : Phase c) (hFault : c.fault = none) (hReady : c.Ready e) :
    Posting (c.step e) := by
  cases hPhase with
  | opened hNew =>
    subst hNew
    exact .firstStep (opened_cases hReady)
  | opening hOpening => exact h.openingStep hOpening (hOpening.step_cases hReady)
  | live hLive => exact h.liveStep hLive (hLive.step_cases hReady)
  | down hDown =>
    have hStep := hDown.step_cases hFault hReady
    exact h.of_closed hStep.quiet (hDown.step hFault hStep).client
  | crashed hCrashed => simp [hFault] at hCrashed

theorem Kept.step (h : Kept n c) (hFault : c.fault = none) (hReady : c.Ready e) (hTask : ∀ m, e ≠ .deliver m) :
    Kept n (c.step e) :=
  ⟨h.phase.step ⟨hFault, e, hReady, rfl⟩, h.posting.step h.phase hFault hReady,
    h.numbered.of_added (h.phase.added hFault hReady hTask) (Nat.le_refl n)⟩

theorem Kept.deliver (h : Kept n c) (hFault : c.fault = none) (hLast : m.ref + 1 = n) : Kept n (c.deliver m) :=
  ⟨h.phase.step ⟨hFault, .deliver m, trivial, rfl⟩, h.posting.step (e := .deliver m) h.phase hFault trivial,
    h.numbered.deliver hLast⟩

theorem Kept.finish (h : Kept n c) (hDown : Down c) : Kept n c.finish :=
  ⟨.down { hDown with }, h.posting.of_closed ⟨rfl, rfl, List.prefix_rfl, List.prefix_rfl⟩ hDown.client,
    h.numbered.of_added rfl (Nat.le_refl n)⟩

/-- Only what is down is on the list of closed connections. -/
theorem Phase.down_of_pushed (h : Phase c) (hFault : c.fault = none) (hPushed : c.pushed = true) : Down c := by
  cases h with
  | opened h =>
    subst h
    cases hPushed
  | opening h =>
    rw [h.not_pushed.1] at hPushed
    cases hPushed
  | live h =>
    rw [h.not_pushed] at hPushed
    cases hPushed
  | down h => exact h
  | crashed h => simp [hFault] at h

end Connection

/-! ## Passing messages on -/

namespace Hub
variable {h h' h'' : Hub D} {a : Nat} {c c' : Connection D} {svc : Service D} {m : Message D}

/-- What holds of all connections there have been, whether the process goes on or not. -/
structure Told (h : Hub D) : Prop where
  conns : ∀ c ∈ h.conns, c.Kept h.refs.next
  handouts : ∀ c ∈ h.handouts, c.Posted ∧ c.Numbered h.refs.next

theorem next_retain (h : Hub D) (m : Message D) : (h.retain m).refs.next = h.refs.next := by
  unfold retain Counters.retain
  split
  · rfl
  · split
    · rfl
    · exact List.length_set

theorem next_release (h : Hub D) (m : Message D) : (h.release m).refs.next = h.refs.next := by
  unfold release Counters.release
  split
  · rfl
  · split
    · rfl
    · exact List.length_set

/-- Only the counters have changed, and no message has been lost from them. -/
structure Silent (h h' : Hub D) : Prop where
  conns : h'.conns = h.conns
  handouts : h'.handouts = h.handouts
  next : h.refs.next ≤ h'.refs.next

theorem Silent.refl (h : Hub D) : Silent h h := ⟨rfl, rfl, Nat.le_refl _⟩

theorem Silent.trans (h₁ : Silent h h') (h₂ : Silent h' h'') : Silent h h'' :=
  ⟨h₂.conns.trans h₁.conns, h₂.handouts.trans h₁.handouts, h₁.next.trans h₂.next⟩

theorem silent_alloc (h : Hub D) : Silent h { h with refs := h.refs.alloc } :=
  ⟨rfl, rfl, Nat.le_trans (Nat.le_succ _) (Nat.le_of_eq Counters.next_alloc.symm)⟩

theorem silent_retain (h : Hub D) (m : Message D) : Silent h (h.retain m) :=
  ⟨rfl, rfl, Nat.le_of_eq (next_retain h m).symm⟩

theorem silent_release (h : Hub D) (m : Message D) : Silent h (h.release m) :=
  ⟨rfl, rfl, Nat.le_of_eq (next_release h m).symm⟩

theorem silent_releases (ms : List (Message D)) (h : Hub D) : Silent h (ms.foldl release h) := by
  induction ms generalizing h with
  | nil => exact .refl h
  | cons m ms ih => exact (silent_release h m).trans (ih _)

theorem silent_fail (h : Hub D) (f : Option Fault) : Silent h (h.fail f) := by
  cases f with
  | none => exact .refl h
  | some f => exact ⟨rfl, rfl, Nat.le_refl _⟩

theorem Told.silent (hTold : h.Told) (hSilent : Silent h h') : h'.Told := by
  constructor
  · intro c hc
    rw [hSilent.conns] at hc
    obtain ⟨hPhase, hPosting, hNumbered⟩ := hTold.conns c hc
    exact ⟨hPhase, hPosting, hNumbered.of_added rfl hSilent.next⟩
  · intro c hc
    rw [hSilent.handouts] at hc
    exact ⟨(hTold.handouts c hc).1, (hTold.handouts c hc).2.of_added rfl hSilent.next⟩

theorem Silent.faultless (hSilent : Silent h h') (hFaultless : h.Faultless) : h'.Faultless := by
  intro a c hc
  rw [hSilent.conns] at hc
  exact hFaultless hc

theorem Told.set (hTold : h.Told) (hc' : c'.Kept h.refs.next) (a : Nat) : (h.moved a c').Told := by
  refine ⟨fun c hc => ?_, hTold.handouts⟩
  rcases List.mem_or_eq_of_mem_set hc with hc | rfl
  · exact hTold.conns c hc
  · exact hc'

/-- The message is the last one that was made. -/
structure Passing (m : Message D) (h : Hub D) : Prop where
  told : h.Told
  faultless : h.Faultless
  last : m.ref + 1 = h.refs.next

theorem Passing.sendMsg (hPassing : Passing m h) (a errno : Nat) : Passing m (h.sendMsg a m errno).1 := by
  obtain ⟨hTold, hFaultless, hLast⟩ := hPassing
  unfold Hub.sendMsg
  split
  · exact ⟨hTold.silent ⟨rfl, rfl, Nat.le_refl _⟩, hFaultless, hLast⟩
  rename_i c hc
  split
  · exact ⟨hTold.silent ⟨rfl, rfl, Nat.le_refl _⟩, hFaultless, hLast⟩
  split
  · exact ⟨hTold, hFaultless, hLast⟩
  have hKept := (hTold.conns c (List.mem_of_getElem? hc)).deliver (hFaultless hc) hLast
  refine ⟨(hTold.set hKept a).silent (silent_retain _ m), ?_, hLast.trans (next_retain _ m).symm⟩
  exact hFaultless.set ((c.deliver_fault m).trans (hFaultless hc))

theorem Passing.routeDeliver (hPassing : Passing m h) (members : List Delivery) :
    Passing m (routeDeliver m members h) := by
  induction members generalizing h with
  | nil => exact hPassing
  | cons d rest ih =>
    have hSend := hPassing.sendMsg d.member d.errno
    rw [Hub.routeDeliver]
    split
    · rename_i h' hEq
      rw [hEq] at hSend
      exact ih hSend
    · rename_i h' hEq
      rwa [hEq] at hSend

theorem Passing.serviceMessage (hPassing : Passing m h) (a : Nat) (svc : Service D) :
    (h.serviceMessage a m svc).Told ∧ (h.serviceMessage a m svc).Faultless := by
  unfold Hub.serviceMessage
  split
  · exact ⟨hPassing.told, hPassing.faultless⟩
  · exact ⟨hPassing.told, hPassing.faultless⟩
  · rename_i body errno
    -- the answer is made behind the message that it answers
    have hAnswer : Passing ⟨h.refs.next, 0, body⟩ { h with refs := h.refs.alloc } :=
      ⟨hPassing.told.silent (silent_alloc h), hPassing.faultless, Counters.next_alloc.symm⟩
    have hSent := hAnswer.sendMsg a errno
    exact ⟨hSent.told, hSent.faultless⟩
  · rename_i members
    have hRouted := hPassing.routeDeliver members
    exact ⟨hRouted.told, hRouted.faultless⟩

section Body
variable {ref : Option Nat} {works : Bool} {fx : List (Effect D)}

theorem silent_effects (a : Nat) (svc : Service D)
    (hInner : ∀ x ∈ fx, (∀ m, x ≠ .service m) ∧ x ≠ .push ∧ x ≠ .hubClose) (h : Hub D) :
    Silent h (fx.foldl (effect a svc) h) := by
  induction fx generalizing h with
  | nil => exact .refl h
  | cons x fx ih =>
    obtain ⟨⟨hService, hPush, hClose⟩, hRest⟩ := List.forall_mem_cons.mp hInner
    refine Silent.trans ?_ (ih hRest _)
    unfold effect
    split
    · cases x with
      | alloc m => exact silent_alloc h
      | retain m => exact silent_retain h m
      | release m => exact silent_release h m
      | service m => exact absurd rfl (hService m)
      | unregisterAll => exact .refl h
      | push => exact absurd rfl hPush
      | hubClose => exact absurd rfl hClose
    · exact .refl h

/-- A step that services a message has just made it. -/
theorem Told.body (hTold : h.Told) (hRunning : h.running = true) (hBody : Connection.Body ref works fx)
    (hRef : ∀ r, ref = some r → r = h.refs.next) (hFaultless : (∃ m, .service m ∈ fx) → h.Faultless) (a : Nat)
    (svc : Service D) :
    (fx.foldl (effect a svc) h).Told ∧ (h.Faultless → (fx.foldl (effect a svc) h).Faultless) := by
  have hQuiet : ∀ {g : Hub D} {fx : List (Effect D)},
      (∀ x ∈ fx, (∀ m, x ≠ .service m) ∧ x ≠ .push ∧ x ≠ .hubClose) → g.Told →
      (fx.foldl (effect a svc) g).Told ∧ (g.Faultless → (fx.foldl (effect a svc) g).Faultless) :=
    fun hInner hTold => ⟨hTold.silent (silent_effects a svc hInner _), (silent_effects a svc hInner _).faultless⟩
  have hServed : ∀ m, ref = some m.ref → .service m ∈ fx →
      ([.alloc m, .service m].foldl (effect a svc) h).Told ∧
        ([.alloc m, .service m].foldl (effect a svc) h).Faultless := by
    intro m hMade hm
    have hPassing : Passing m { h with refs := h.refs.alloc } := by
      refine ⟨hTold.silent (silent_alloc h), hFaultless ⟨m, hm⟩, ?_⟩
      rw [hRef _ hMade]
      exact Counters.next_alloc.symm
    have hAlloc : effect a svc h (.alloc m) = { h with refs := h.refs.alloc } := if_pos hRunning
    have hServe : effect a svc { h with refs := h.refs.alloc } (.service m) =
        Hub.serviceMessage { h with refs := h.refs.alloc } a m svc := if_pos hRunning
    rw [List.foldl_cons, List.foldl_cons, hAlloc, hServe]
    exact hPassing.serviceMessage a svc
  cases hBody with
  | nothing => exact hQuiet (by simp) hTold
  | unregister => exact hQuiet (by simp) hTold
  | released ms => exact hQuiet (by simp) hTold
  | kept m => exact hQuiet (by simp) hTold
  | serviced m hMade =>
    obtain ⟨hTold', hNone⟩ := hServed m hMade (by simp)
    exact ⟨hTold', fun _ => hNone⟩
  | unserviced m hMade =>
    obtain ⟨hTold', hNone⟩ := hServed m hMade (by simp)
    obtain ⟨hTold'', hKeeps⟩ := @hQuiet _ [.retain m] (by simp) hTold'
    exact ⟨hTold'', fun _ => hKeeps hNone⟩

end Body

/-! ## The list of closed connections in every run -/

/-- A state is on the list once, and only if its second close has been made. -/
structure Listed (h : Hub D) : Prop where
  pushed : ∀ {a : Nat} {c : Connection D}, h.conns[a]? = some c → a ∈ h.closed → c.pushed = true
  bound : ∀ {a : Nat}, a ∈ h.closed → a < h.conns.length
  nodup : h.closed.Nodup

theorem Delivered.isListed (hDelivered : Delivered h h') (hListed : h.Listed) : h'.Listed where
  pushed := by
    intro a c' hc' ha
    obtain ⟨c, hc, hQueued⟩ := hDelivered.conns hc'
    rw [hQueued.fields.2.2.1]
    exact hListed.pushed hc (hDelivered.closed ▸ ha)
  bound := by
    intro a ha
    rw [hDelivered.length]
    exact hListed.bound (hDelivered.closed ▸ ha)
  nodup := hDelivered.closed ▸ hListed.nodup

theorem Listed.set (hListed : h.Listed) (hc : h.conns[a]? = some c) {push : Bool}
    (hPushed : c'.pushed = (c.pushed || push)) (hOnce : push = true → a ∉ h.closed) :
    ((h.moved a c').listed a push).Listed := by
  have hMem : ∀ {b : Nat}, b ∈ ((h.moved a c').listed a push).closed → (b = a ∧ push = true) ∨ b ∈ h.closed := by
    intro b hb
    cases push with
    | false => exact .inr hb
    | true => exact (List.mem_cons.mp hb).imp (⟨·, rfl⟩) id
  constructor
  · intro b d hd hb
    rcases getElem?_set_cases hd with ⟨rfl, rfl⟩ | ⟨hNe, hd⟩
    · rcases hMem hb with ⟨-, hPush⟩ | hb
      · rw [hPushed, hPush, Bool.or_true]
      · rw [hPushed, hListed.pushed hc hb, Bool.true_or]
    · exact hListed.pushed hd ((hMem hb).resolve_left fun hSame => hNe hSame.1)
  · intro b hb
    rw [Hub.listed, Hub.moved, List.length_set]
    rcases hMem hb with ⟨rfl, -⟩ | hb
    · exact (List.getElem?_eq_some_iff.mp hc).1
    · exact hListed.bound hb
  · cases push with
    | false => exact hListed.nodup
    | true => exact List.nodup_cons.mpr ⟨hOnce rfl, hListed.nodup⟩

theorem Listed.reused {b : Nat} {rest : List Nat} (hListed : h.Listed) (hClosed : h.closed = b :: rest)
    (handouts : List (Connection D)) (reused : Bool) :
    Listed { h with closed := rest, conns := h.conns.set b .opened, handouts, reused } := by
  obtain ⟨hNot, hNodup⟩ := List.nodup_cons.mp (hClosed ▸ hListed.nodup)
  have hRest : ∀ {a : Nat}, a ∈ rest → a ∈ h.closed := fun ha => hClosed ▸ List.mem_cons_of_mem b ha
  refine ⟨fun {a d} hd ha => ?_, fun ha => ?_, hNodup⟩
  · rcases getElem?_set_cases hd with ⟨rfl, -⟩ | ⟨-, hd⟩
    · exact absurd ha hNot
    · exact hListed.pushed hd (hRest ha)
  · rw [List.length_set]
    exact hListed.bound (hRest ha)

/-! ## Whole runs -/

structure Followed (h : Hub D) : Prop where
  faultless : h.Faultless
  listed : h.Listed

/-- The connection at the front is finished, whoever's it is. -/
theorem Followed.close (hFollowed : h.Followed) (hTold : h.Told) (a : Nat) :
    (h.close a).Told ∧ (h.close a).Followed := by
  obtain ⟨hFaultless, hListed⟩ := hFollowed
  unfold Hub.close Hub.finish
  dsimp only
  split
  · exact ⟨hTold.silent ⟨rfl, rfl, Nat.le_refl _⟩, hFaultless, { hListed with }⟩
  rename_i b rest hClosed
  split
  · exact ⟨hTold.silent ⟨rfl, rfl, Nat.le_refl _⟩, hFaultless, { hListed with }⟩
  rename_i c hc
  have hPushed : c.pushed = true := hListed.pushed hc (hClosed ▸ List.mem_cons_self)
  have hKept := hTold.conns c (List.mem_of_getElem? hc)
  have hFinish := hKept.finish (hKept.phase.down_of_pushed (hFaultless hc) hPushed)
  have hReleases := silent_releases (c.recvMsg.toList ++ c.sendMsg.toList)
    (Hub.moved { h with closes := h.closes ++ [(a, h.closed.head?)] } b c.finish)
  refine ⟨Told.silent ?_ hReleases, ?_, (delivered_releases _ _).isListed ?_⟩
  · exact (hTold.set hFinish b).silent ⟨rfl, rfl, Nat.le_refl _⟩
  · intro d e he
    have hFault : c.finish.fault = none := show c.fault = none from hFaultless hc
    exact hReleases.faultless (hFaultless.set hFault) he
  · have hSet : ((h.moved b c.finish).listed b false).Listed := hListed.set hc (Bool.or_false _).symm (by simp)
    exact { hSet with }

section Run
variable {e : Connection.Event D}

theorem Followed.run (hFollowed : h.Followed) (hTold : h.Told) (hRunning : h.running = true)
    (hc : h.conns[a]? = some c) (hReady : c.Ready e) (hTask : ∀ m, e ≠ .deliver m) (hNot : e ≠ .finish)
    (hRef : ∀ r, e.ref = some r → r = h.refs.next) (svc : Service D) :
    (h.run a c (c.step e) svc).Told ∧
      ((h.run a c (c.step e) svc).running = true → (h.run a c (c.step e) svc).Followed) := by
  obtain ⟨hFaultless, hList⟩ := hFollowed
  have hFault := hFaultless hc
  have hOld := hTold.conns c (List.mem_of_getElem? hc)
  obtain ⟨fx, push, close, hReport, -⟩ := hOld.phase.report hFault hReady hTask hNot
  have hNew := hOld.step hFault hReady hTask
  generalize c.step e = c' at hReport hNew ⊢
  have hNone : c'.fault = none → (h.moved a c').Faultless := fun hNone => hFaultless.set hNone
  have hBody := delivered_body a svc hReport.body (h.moved a c')
  obtain ⟨hTold', hNone'⟩ := (hTold.set hNew a).body hRunning hReport.body hRef
    (fun hService => hNone ((hReport.fault (.inr hService)).trans hFault)) a svc
  have hOnce : push = true → a ∉ h.closed := by
    intro hPush ha
    have hPushed := hList.pushed hc ha
    rw [hReport.once hPush] at hPushed
    cases hPushed
  rw [run_eq hReport hOnce rfl]
  generalize fx.foldl (effect a svc) (h.moved a c') = g at hBody hTold' hNone' ⊢
  have hListed : (g.listed a push).Listed := hBody.listed.isListed (hList.set hc hReport.pushed hOnce)
  have hTold'' : (g.listed a push).Told := hTold'.silent ⟨rfl, rfl, Nat.le_refl _⟩
  cases hGo : g.running with
  | false =>
    rw [if_neg (by simp)]
    refine ⟨hTold'.silent (silent_fail g _), fun hOn => ?_⟩
    rw [(running_of_fail hOn).2] at hGo
    cases hGo
  | true =>
    rw [if_pos rfl]
    cases close with
    | false =>
      refine ⟨hTold''.silent (silent_fail _ _), fun hOn => ?_⟩
      have hFine := (running_of_fail hOn).1
      rw [hFine]
      exact ⟨hNone' (hNone hFine), hListed⟩
    | true =>
      have hFine := (hReport.fault (.inl rfl)).trans hFault
      have hFollowed' : (g.listed a push).Followed := ⟨hNone' (hNone hFine), hListed⟩
      obtain ⟨hClosed, hFollowed'⟩ := hFollowed'.close hTold'' a
      rw [hFine, if_pos rfl]
      exact ⟨hClosed, fun _ => hFollowed'⟩

end Run

/-- `Hub_new_or_reuse_conn` gives a state that nothing was queued for. -/
theorem Followed.newOrReuseConn (hFollowed : h.Followed) (hTold : h.Told) (hNew : h.newOrReuseConn = (h', a)) :
    h'.Told ∧ h'.Followed ∧ h'.refs = h.refs ∧ (h'.running = true → h'.conns[a]? = some .opened) := by
  obtain ⟨hFaultless, hListed⟩ := hFollowed
  unfold Hub.newOrReuseConn at hNew
  split at hNew
  · rename_i hClosed
    cases hNew
    refine ⟨⟨fun c hc => ?_, hTold.handouts⟩, ⟨fun hc => ?_, by simp [hClosed], by simp [hClosed], hListed.nodup⟩,
      rfl, fun _ => by simp⟩
    · rcases List.mem_append.mp hc with hc | hc
      · exact hTold.conns c hc
      · rw [List.mem_singleton.mp hc]
        exact Connection.kept_opened
    · rcases getElem?_concat_cases hc with hc | ⟨-, rfl⟩
      · exact hFaultless hc
      · rfl
  · rename_i b rest hClosed
    have hLt : b < h.conns.length := hListed.bound (hClosed ▸ List.mem_cons_self)
    have hc := List.getElem?_eq_getElem hLt
    rw [hc] at hNew
    cases hNew
    have hKept := hTold.conns _ (List.getElem_mem hLt)
    have hSet : (h.moved a .opened).Told := hTold.set Connection.kept_opened a
    refine ⟨⟨hSet.conns, fun c hc => ?_⟩, ⟨hFaultless.set rfl, hListed.reused hClosed _ _⟩, rfl,
      fun _ => List.getElem?_set_self hLt⟩
    rcases List.mem_append.mp hc with hc | hc
    · exact hTold.handouts c hc
    · rw [List.mem_singleton.mp hc]
      exact ⟨hKept.posting.posted, hKept.numbered⟩

theorem Followed.step (hFollowed : h.Followed) (hTold : h.Told) (hRunning : h.running = true) {act : Act D}
    (hReady : h.Ready act) :
    (h.step act).Told ∧ ((h.step act).running = true → (h.step act).Followed) := by
  cases act with
  | accept io =>
    simp only [Hub.step, accept]
    cases hNew : h.newOrReuseConn with
    | mk h' a =>
      obtain ⟨hTold', hFollowed', hRefs, hc⟩ := hFollowed.newOrReuseConn hTold hNew
      simp only
      split
      · rename_i hRunning'
        refine hFollowed'.run (e := .incoming (h'.answers io .failed)) hTold' hRunning' (hc hRunning') trivial
          (by simp) (by simp) ?_ _
        rintro r ⟨⟩
        rfl
      · exact ⟨hTold', fun _ => hFollowed'⟩
  | incoming a io svc =>
    obtain ⟨c, hc, hReady⟩ := hReady
    rw [Option.mem_def] at hc
    simp only [Hub.step, hc]
    refine hFollowed.run hTold hRunning hc hReady (by simp) (by simp) ?_ _
    rintro r ⟨⟩
    rfl
  | outgoing a io =>
    obtain ⟨c, hc, hReady⟩ := hReady
    rw [Option.mem_def] at hc
    simp only [Hub.step, hc]
    refine hFollowed.run hTold hRunning hc hReady (by simp) (by simp) ?_ _
    rintro r ⟨⟩

theorem Reachable.told {P : Hub D → Act D → Prop} (hRun : h.Reachable P) :
    h.Told ∧ (h.running = true → h.Followed) := by
  induction hRun with
  | refl =>
    refine ⟨⟨by simp [listening], by simp [listening]⟩, fun _ => ⟨by simp [Faultless, listening], ?_⟩⟩
    constructor <;> simp [listening]
  | tail _ hStep ih =>
    obtain ⟨hRunning, act, hReady, -, rfl⟩ := hStep
    exact (ih.2 hRunning).step ih.1 hRunning hReady

def everyone (h : Hub D) : List (Connection D) := h.handouts ++ h.conns

theorem Told.everyone (hTold : h.Told) (hc : c ∈ h.everyone) : c.Posted ∧ c.Numbered h.refs.next := by
  rcases List.mem_append.mp hc with hc | hc
  · exact hTold.handouts c hc
  · exact ⟨(hTold.conns c hc).posting.posted, (hTold.conns c hc).numbered⟩

/-- No two clients are sent two messages in opposite orders, in any run, whoever is still connected. -/
theorem broadcast_total_order (hRun : h.Reachable fun _ _ => True) {c d : Connection D} (hc : c ∈ h.everyone)
    (hd : d ∈ h.everyone) {m n : Message D} (hDiffer : m.ref ≠ n.ref)
    (hmn : [m, n].Sublist (c.past.sends.map Prod.snd)) : ¬ [n, m].Sublist (d.past.sends.map Prod.snd) := by
  have hOrder : ∀ {c : Connection D} {m n : Message D}, c ∈ h.everyone →
      [m, n].Sublist (c.past.sends.map Prod.snd) → m.ref ≤ n.ref := by
    intro c m n hc hmn
    obtain ⟨hPosted, hNumbered⟩ := hRun.told.1.everyone hc
    have hRising := hNumbered.rising.sublist (hmn.trans hPosted.messages.sublist)
    rwa [List.pairwise_pair] at hRising
  intro hnm
  exact hDiffer (Nat.le_antisymm (hOrder hc hmn) (hOrder hd hnm))

/-- A client sends two messages to a route that two others listen to, and both of them get both. -/
def twice : List (Act Unit) :=
  connect 0 ++ connect 1 ++ connect 2 ++ request 2 1 (.routed [⟨0, 0⟩, ⟨1, 0⟩]) ++
    request 2 2 (.routed [⟨1, 0⟩, ⟨0, 0⟩]) ++
    List.replicate 3 (.outgoing 1 Connection.quietIo) ++ List.replicate 3 (.outgoing 0 Connection.quietIo)

theorem broadcast_total_order_twice :
    ∃ h : Hub Unit, h.Reachable (fun _ _ => True) ∧ ∃ c ∈ h.conns[0]?, ∃ d ∈ h.conns[1]?, ∃ m n, m.ref ≠ n.ref ∧
      [m, n].Sublist (c.past.sends.map Prod.snd) ∧ [m, n].Sublist (d.past.sends.map Prod.snd) ∧
      ¬ [n, m].Sublist (d.past.sends.map Prod.snd) := by
  let h := twice.foldl step listening
  have hRun : h.Reachable fun _ _ => True := .foldl .refl (by decide +kernel)
  let body : Stackish.Tree Unit := .node ⟨some Protocol.headerName, .group⟩ (.node ⟨none, .group⟩ .nil .nil) .nil
  have hSends : ∃ c ∈ h.conns[0]?, ∃ d ∈ h.conns[1]?,
      c.past.sends.map Prod.snd = [⟨0, 1, body⟩, ⟨1, 2, body⟩] ∧
      d.past.sends.map Prod.snd = [⟨0, 1, body⟩, ⟨1, 2, body⟩] := by
    decide +kernel
  obtain ⟨c, hc, d, hd, hcSends, hdSends⟩ := hSends
  refine ⟨h, hRun, c, hc, d, hd, ⟨0, 1, body⟩, ⟨1, 2, body⟩, by simp, ?_, ?_, ?_⟩
  · rw [hcSends]
  · rw [hdSends]
  · exact broadcast_total_order hRun (List.mem_append_right _ (List.mem_of_getElem? hc))
      (List.mem_append_right _ (List.mem_of_getElem? hd)) (by simp) (by rw [hcSends])

end Hub

end Utu.Hub
