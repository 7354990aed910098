import Utu.Hub.Hub
import Utu.Hub.Effects

/-!
# The list of closed connections

A connection is put on the list by whichever task makes the second close, and
its handler finishes the state at the front. That these are the same state
depends on the order in which the tasks run.
-/

namespace Utu.Hub
open Ledger
set_option autoImplicit false
set_option linter.dupNamespace false

variable {D : Type}

namespace Connection

/-- Messages have been queued for a connection. -/
def Queued : Connection D → Connection D → Prop :=
  Relation.ReflTransGen fun c c' => ∃ m, c' = c.deliver m

variable {c c' : Connection D}

theorem Queued.fields (h : Queued c c') :
    c'.fault = c.fault ∧ c'.incoming = c.incoming ∧ c'.pushed = c.pushed ∧
      c'.past.finishes = c.past.finishes ∧ c'.recvMsg = c.recvMsg := by
  induction h with
  | refl => exact ⟨rfl, rfl, rfl, rfl, rfl⟩
  | tail _ hStep ih =>
    obtain ⟨m, rfl⟩ := hStep
    simpa using ih

theorem Queued.reachable (h : Queued c c') (hRun : Reachable c) (hFault : c.fault = none) : Reachable c' := by
  induction h with
  | refl => exact hRun
  | tail hQueued hStep ih =>
    obtain ⟨m, rfl⟩ := hStep
    exact ih.tail ⟨(Queued.fields hQueued).1.trans hFault, .deliver m, trivial, rfl⟩

theorem Body.inner {ref : Option Nat} {works : Bool} {fx : List (Effect D)} (h : Body ref works fx) {x : Effect D}
    (hx : x ∈ fx) : x ≠ .push ∧ x ≠ .hubClose := by
  cases h <;> simp at hx <;> grind

end Connection

namespace Hub
variable {h h' h'' : Hub D} {a : Nat} {svc : Service D}

/-! ## What stays when messages move -/

/-- Only messages have moved. -/
structure Delivered (h h' : Hub D) : Prop where
  length : h'.conns.length = h.conns.length
  conns : ∀ {a : Nat} {c' : Connection D}, h'.conns[a]? = some c' →
    ∃ c, h.conns[a]? = some c ∧ Connection.Queued c c'
  closed : h'.closed = h.closed
  closes : h'.closes = h.closes
  handouts : h'.handouts = h.handouts
  reused : h'.reused = h.reused

theorem Delivered.of_conns (hConns : h'.conns = h.conns) (hClosed : h'.closed = h.closed)
    (hCloses : h'.closes = h.closes) (hHandouts : h'.handouts = h.handouts)
    (hReused : h'.reused = h.reused) : Delivered h h' where
  length := congrArg _ hConns
  conns := fun {_ c'} hc => ⟨c', hConns ▸ hc, .refl⟩
  closed := hClosed
  closes := hCloses
  handouts := hHandouts
  reused := hReused

theorem Delivered.refl (h : Hub D) : Delivered h h := .of_conns rfl rfl rfl rfl rfl

theorem Delivered.trans (h₁ : Delivered h h') (h₂ : Delivered h' h'') : Delivered h h'' where
  length := h₂.length.trans h₁.length
  conns := by
    intro a c'' hc''
    obtain ⟨c', hc', hQueued'⟩ := h₂.conns hc''
    obtain ⟨c, hc, hQueued⟩ := h₁.conns hc'
    exact ⟨c, hc, hQueued.trans hQueued'⟩
  closed := h₂.closed.trans h₁.closed
  closes := h₂.closes.trans h₁.closes
  handouts := h₂.handouts.trans h₁.handouts
  reused := h₂.reused.trans h₁.reused

theorem delivered_retain (h : Hub D) (m : Message D) : Delivered h (h.retain m) :=
  .of_conns rfl rfl rfl rfl rfl

theorem delivered_release (h : Hub D) (m : Message D) : Delivered h (h.release m) :=
  .of_conns rfl rfl rfl rfl rfl

theorem delivered_alloc (h : Hub D) : Delivered h { h with refs := h.refs.alloc } :=
  .of_conns rfl rfl rfl rfl rfl

theorem delivered_crash (h : Hub D) (f : Fault) : Delivered h (h.crash f) :=
  .of_conns rfl rfl rfl rfl rfl

theorem delivered_fail (h : Hub D) (f : Option Fault) : Delivered h (h.fail f) := by
  cases f with
  | none => exact .refl h
  | some f => exact delivered_crash h f

theorem running_of_fail {f : Option Fault} (hRunning : (h.fail f).running = true) :
    f = none ∧ h.running = true := by
  cases f with
  | none => exact ⟨rfl, hRunning⟩
  | some f => simp [fail, crash, running] at hRunning

theorem delivered_set {c : Connection D} (hc : h.conns[a]? = some c) (m : Message D) :
    Delivered h { h with conns := h.conns.set a (c.deliver m) } where
  length := List.length_set
  conns := by
    intro b c' hc'
    rcases getElem?_set_cases hc' with ⟨rfl, rfl⟩ | ⟨-, hc'⟩
    · exact ⟨c, hc, .single ⟨m, rfl⟩⟩
    · exact ⟨c', hc', .refl⟩
  closed := rfl
  closes := rfl
  handouts := rfl
  reused := rfl

theorem delivered_sendMsg (h : Hub D) (a : Nat) (m : Message D) (errno : Nat) :
    Delivered h (h.sendMsg a m errno).1 := by
  unfold sendMsg
  split
  · exact delivered_crash h _
  · rename_i c hc
    split
    · exact delivered_crash h _
    · split
      · exact .refl h
      · exact (delivered_set hc m).trans (delivered_retain _ m)

theorem delivered_routeDeliver (m : Message D) (members : List Delivery) (h : Hub D) :
    Delivered h (routeDeliver m members h) := by
  induction members generalizing h with
  | nil => exact .refl h
  | cons d rest ih =>
    have hSend := delivered_sendMsg h d.member m d.errno
    rw [routeDeliver]
    split
    · rename_i h' hEq
      rw [hEq] at hSend
      exact hSend.trans (ih h')
    · rename_i h' hEq
      rwa [hEq] at hSend

theorem delivered_serviceMessage (h : Hub D) (a : Nat) (m : Message D) (svc : Service D) :
    Delivered h (h.serviceMessage a m svc) := by
  unfold serviceMessage
  split
  · exact .refl h
  · exact .refl h
  · exact (delivered_alloc h).trans (delivered_sendMsg _ _ _ _)
  · exact delivered_routeDeliver m _ h

theorem delivered_effect (h : Hub D) {fx : Effect D} (hPush : fx ≠ .push) (hClose : fx ≠ .hubClose) :
    Delivered h (effect a svc h fx) := by
  unfold effect
  split
  · cases fx with
    | alloc m => exact delivered_alloc h
    | retain m => exact delivered_retain h m
    | release m => exact delivered_release h m
    | service m => exact delivered_serviceMessage h a m svc
    | unregisterAll => exact .refl h
    | push => exact absurd rfl hPush
    | hubClose => exact absurd rfl hClose
  · exact .refl h

theorem delivered_body (a : Nat) (svc : Service D) {ref : Option Nat} {works : Bool} {fx : List (Effect D)}
    (hBody : Connection.Body ref works fx) (h : Hub D) : Delivered h (fx.foldl (effect a svc) h) := by
  have hInner : ∀ x ∈ fx, x ≠ .push ∧ x ≠ .hubClose := fun x hx => hBody.inner hx
  clear hBody
  induction fx generalizing h with
  | nil => exact .refl h
  | cons x fx ih =>
    obtain ⟨hPush, hClose⟩ := hInner x (List.mem_cons_self ..)
    exact (delivered_effect h hPush hClose).trans (ih _ fun y hy => hInner y (List.mem_cons_of_mem x hy))

/-! ## Orderly runs -/

/-- The connection whose handler runs. -/
def Act.handler : Act D → Option Nat
  | .incoming a _ _ => some a
  | _ => none

/-- A handler comes back from a half close when the second close has been made, and a state is handed
out when its writing task has ended. -/
def Timely (h : Hub D) : Act D → Prop
  | .accept _ =>
    ∀ a ∈ h.closed.head?, ∀ c ∈ h.conns[a]?, c.outgoing = .absent ∨ c.outgoing = .ended
  | .incoming a _ _ =>
    ∀ c ∈ h.conns[a]?, c.incoming = .closing .readClose false → c.done = true
  | .outgoing _ _ => True

instance (h : Hub D) : (act : Act D) → Decidable (h.Timely act)
  | .accept _ => inferInstanceAs (Decidable (∀ a ∈ h.closed.head?, ∀ c ∈ h.conns[a]?, _))
  | .incoming a _ _ => inferInstanceAs (Decidable (∀ c ∈ h.conns[a]?, _))
  | .outgoing _ _ => .isTrue trivial

/-- Besides, a state on the list of closed ones goes to its handler before anything else happens. -/
def Orderly (h : Hub D) (act : Act D) : Prop :=
  (∀ a ∈ h.closed, ∀ c ∈ h.conns[a]?, c.incoming = .finished ∨ act.handler = some a) ∧ h.Timely act

instance (h : Hub D) (act : Act D) : Decidable (h.Orderly act) :=
  inferInstanceAs (Decidable (_ ∧ _))

/-- Every handler that closed found its own connection at the front, and no connection was handed
out before its handler was through. -/
structure Disciplined (h : Hub D) : Prop where
  closes : ∀ p ∈ h.closes, p.2 = some p.1
  handouts : ∀ c ∈ h.handouts, c.incoming = .finished ∧ c.past.finishes = 1

/-- A state is on the list if its second close has been made, at the front as long as its handler
is not through; if it is, then the state has been finished once, unless that is still `pending`. -/
structure Sane (h : Hub D) (pending : Option Nat) : Prop where
  reach : ∀ {a : Nat} {c : Connection D}, h.conns[a]? = some c → c.Reachable ∧ c.fault = none
  listed : ∀ {a : Nat} {c : Connection D}, h.conns[a]? = some c → (a ∈ h.closed ↔ c.pushed = true)
  bound : ∀ {a : Nat}, a ∈ h.closed → a < h.conns.length
  nodup : h.closed.Nodup
  front : ∀ {a : Nat} {c : Connection D}, h.conns[a]? = some c → a ∈ h.closed →
    c.incoming ≠ .finished → h.closed.head? = some a
  finished : ∀ {a : Nat} {c : Connection D}, h.conns[a]? = some c → c.incoming = .finished → a ∈ h.closed
  finishes : ∀ {a : Nat} {c : Connection D}, h.conns[a]? = some c →
    c.past.finishes = if c.incoming = .finished ∧ pending ≠ some a then 1 else 0

theorem Delivered.sane (hDelivered : Delivered h h') {pending : Option Nat} (hSane : Sane h pending) :
    Sane h' pending where
  reach := by
    intro a c' hc'
    obtain ⟨c, hc, hQueued⟩ := hDelivered.conns hc'
    obtain ⟨hRun, hFault⟩ := hSane.reach hc
    exact ⟨hQueued.reachable hRun hFault, hQueued.fields.1.trans hFault⟩
  listed := by
    intro a c' hc'
    obtain ⟨c, hc, hQueued⟩ := hDelivered.conns hc'
    rw [hDelivered.closed, hQueued.fields.2.2.1]
    exact hSane.listed hc
  bound := by
    intro a ha
    rw [hDelivered.length]
    exact hSane.bound (hDelivered.closed ▸ ha)
  nodup := hDelivered.closed ▸ hSane.nodup
  front := by
    intro a c' hc'
    obtain ⟨c, hc, hQueued⟩ := hDelivered.conns hc'
    rw [hDelivered.closed, hQueued.fields.2.1]
    exact hSane.front hc
  finished := by
    intro a c' hc'
    obtain ⟨c, hc, hQueued⟩ := hDelivered.conns hc'
    rw [hDelivered.closed, hQueued.fields.2.1]
    exact hSane.finished hc
  finishes := by
    intro a c' hc'
    obtain ⟨c, hc, hQueued⟩ := hDelivered.conns hc'
    rw [hQueued.fields.2.2.2.1, hQueued.fields.2.1]
    exact hSane.finishes hc

section Run
variable {c c' : Connection D} {e : Connection.Event D} {fx : List (Effect D)} {push close : Bool}

/-- The connection `a` is put on the list if it made the second close. -/
def listed (h : Hub D) (a : Nat) (push : Bool) : Hub D :=
  { h with closed := if push then a :: h.closed else h.closed }

/-- The connection `a` has made its step. -/
def moved (h : Hub D) (a : Nat) (c' : Connection D) : Hub D := { h with conns := h.conns.set a c' }

theorem Sane.moved (hSane : Sane h none) (hc : h.conns[a]? = some c)
    (hNext : ∀ b ∈ h.closed, ∀ c ∈ h.conns[b]?, c.incoming = .finished ∨ b = a)
    (hReport : Connection.Report c c' e fx push close) (hRun : c'.Reachable) (hFault : c'.fault = none)
    (hLate : close = true → c'.pushed = true) :
    Sane ((h.moved a c').listed a push) (if close then some a else none) := by
  have hOnce : push = true → a ∉ h.closed := by
    intro hPush ha
    have hPushed := (hSane.listed hc).mp ha
    rw [hReport.once hPush] at hPushed
    cases hPushed
  have hSub : ∀ {b}, b ∈ h.closed → b ∈ ((h.moved a c').listed a push).closed := by
    intro b hb
    cases push with
    | true => exact List.mem_cons_of_mem a hb
    | false => exact hb
  have hMem : ∀ {b}, b ∈ ((h.moved a c').listed a push).closed → b ∈ h.closed ∨ push = true ∧ b = a := by
    intro b hb
    cases push with
    | true =>
      rcases List.mem_cons.mp hb with hb | hb
      · exact .inr ⟨rfl, hb⟩
      · exact .inl hb
    | false => exact .inl hb
  constructor
  case reach =>
    intro b d hd
    rcases getElem?_set_cases hd with ⟨rfl, rfl⟩ | ⟨-, hd⟩
    · exact ⟨hRun, hFault⟩
    · exact hSane.reach hd
  case listed =>
    intro b d hd
    rcases getElem?_set_cases hd with ⟨rfl, rfl⟩ | ⟨hb, hd⟩
    · rw [hReport.pushed, Bool.or_eq_true, ← hSane.listed hc]
      constructor
      · intro hb
        exact (hMem hb).imp_right And.left
      · rintro (hb | hPush)
        · exact hSub hb
        · rw [hPush]
          exact List.mem_cons_self
    · rw [← hSane.listed hd]
      constructor
      · intro hb'
        exact (hMem hb').resolve_right fun h => hb h.2
      · exact hSub
  case bound =>
    intro b hb
    rw [Hub.listed, Hub.moved, List.length_set]
    rcases hMem hb with hb | ⟨-, rfl⟩
    · exact hSane.bound hb
    · exact (List.getElem?_eq_some_iff.mp hc).1
  case nodup =>
    cases push with
    | true => exact List.nodup_cons.mpr ⟨hOnce rfl, hSane.nodup⟩
    | false => exact hSane.nodup
  case front =>
    intro b d hd hb hUnfinished
    rcases hMem hb with hb' | ⟨hPush, rfl⟩
    · -- Only the handler of `a` could be behind, and it is at the front already.
      have hba : b = a := by
        rcases getElem?_set_cases hd with ⟨hba, -⟩ | ⟨hba, hd⟩
        · exact hba
        · exact (hNext b hb' d hd).resolve_left hUnfinished
      subst hba
      rcases getElem?_set_cases hd with ⟨-, rfl⟩ | ⟨hba, -⟩
      · have hHead := hSane.front hc hb' fun hFinished => hUnfinished (hReport.kept hFinished)
        cases push with
        | true => exact absurd hb' (hOnce rfl)
        | false => exact hHead
      · exact absurd rfl hba
    · rw [hPush]
      rfl
  case finished =>
    intro b d hd hFinished
    rcases getElem?_set_cases hd with ⟨rfl, rfl⟩ | ⟨-, hd⟩
    · by_cases hWas : c.incoming = .finished
      · exact hSub (hSane.finished hc hWas)
      · have hPushed := hLate (hReport.ends.mpr ⟨hFinished, hWas⟩)
        rw [hReport.pushed, Bool.or_eq_true, ← hSane.listed hc] at hPushed
        rcases hPushed with hb | hPush
        · exact hSub hb
        · rw [hPush]
          exact List.mem_cons_self
    · exact hSub (hSane.finished hd hFinished)
  case finishes =>
    intro b d hd
    rcases getElem?_set_cases hd with ⟨rfl, rfl⟩ | ⟨hb, hd⟩
    · rw [hReport.finishes, hSane.finishes hc]
      cases close with
      | true =>
        obtain ⟨-, hWas⟩ := hReport.ends.mp rfl
        simp [hWas]
      | false =>
        have hSame : d.incoming = .finished ↔ c.incoming = .finished := by
          refine ⟨fun hFinished => ?_, hReport.kept⟩
          by_contra hWas
          cases hReport.ends.mpr ⟨hFinished, hWas⟩
        simp [hSame]
    · rw [hSane.finishes hd]
      cases close with
      | true => simp [Ne.symm hb]
      | false => rfl

theorem delivered_releases (ms : List (Message D)) (h : Hub D) : Delivered h (ms.foldl release h) := by
  induction ms generalizing h with
  | nil => exact .refl h
  | cons m ms ih => exact (delivered_release h m).trans (ih _)

/-- The handler finishes its own connection. -/
theorem Sane.finish (hSane : Sane h (some a)) (hc : h.conns[a]? = some c) (hFinished : c.incoming = .finished)
    (closes : List (Nat × Option Nat)) : Sane { h with conns := h.conns.set a c.finish, closes } none := by
  obtain ⟨hRun, hFault⟩ := hSane.reach hc
  constructor
  case reach =>
    intro b d hd
    rcases getElem?_set_cases hd with ⟨rfl, rfl⟩ | ⟨-, hd⟩
    · exact ⟨hRun.tail ⟨hFault, .finish, hFinished, rfl⟩, hFault⟩
    · exact hSane.reach hd
  case listed =>
    intro b d hd
    rcases getElem?_set_cases hd with ⟨rfl, rfl⟩ | ⟨-, hd⟩
    · show b ∈ h.closed ↔ c.pushed = true
      exact hSane.listed hc
    · exact hSane.listed hd
  case bound =>
    intro b hb
    rw [List.length_set]
    exact hSane.bound hb
  case nodup => exact hSane.nodup
  case front =>
    intro b d hd hb hUnfinished
    rcases getElem?_set_cases hd with ⟨rfl, rfl⟩ | ⟨-, hd⟩
    · exact absurd hFinished hUnfinished
    · exact hSane.front hd hb hUnfinished
  case finished =>
    intro b d hd hOver
    rcases getElem?_set_cases hd with ⟨rfl, rfl⟩ | ⟨-, hd⟩
    · exact hSane.finished hc hFinished
    · exact hSane.finished hd hOver
  case finishes =>
    intro b d hd
    rcases getElem?_set_cases hd with ⟨rfl, rfl⟩ | ⟨hb, hd⟩
    · have hNot : c.past.finishes = 0 := by simpa using hSane.finishes hc
      simp [Connection.finish, Connection.seen, hFinished, hNot]
    · simpa [Ne.symm hb] using hSane.finishes hd

/-- Action `close` of the hub, when the connection of the handler is at the front. -/
theorem close_eq (hc : h.conns[a]? = some c) (hHead : h.closed.head? = some a) :
    h.close a = (c.recvMsg.toList ++ c.sendMsg.toList).foldl release
      { h with conns := h.conns.set a c.finish, closes := h.closes ++ [(a, some a)] } := by
  obtain ⟨rest, hClosed⟩ := List.head?_eq_some_iff.mp hHead
  simp only [Hub.close, Hub.finish, hClosed, hc, List.head?_cons]

theorem Sane.handler_close (hSane : Sane h (some a)) (hc : h.conns[a]? = some c)
    (hFinished : c.incoming = .finished) (hHead : h.closed.head? = some a) :
    Sane (h.close a) none ∧ (h.close a).closes = h.closes ++ [(a, some a)] ∧
      (h.close a).handouts = h.handouts := by
  have hDelivered := delivered_releases (c.recvMsg.toList ++ c.sendMsg.toList)
    { h with conns := h.conns.set a c.finish, closes := h.closes ++ [(a, some a)] }
  rw [close_eq hc hHead]
  exact ⟨hDelivered.sane (hSane.finish hc hFinished _), hDelivered.closes, hDelivered.handouts⟩

theorem effect_stopped (hStopped : h.running = false) (fx : List (Effect D)) :
    fx.foldl (effect a svc) h = h := by
  induction fx with
  | nil => rfl
  | cons x fx ih =>
    simp only [List.foldl_cons, effect, hStopped, Bool.false_eq_true, if_false]
    exact ih

theorem effect_push (hRunning : h.running = true) (hNot : push = true → a ∉ h.closed) :
    (if push then [.push] else []).foldl (effect a svc) h = h.listed a push := by
  cases push with
  | false => rfl
  | true =>
    have hHead : h.closed.head? ≠ some a := fun hHead => hNot rfl (List.mem_of_mem_head? hHead)
    simp [effect, hRunning, restClose, hHead, listed]

/-- What a step does to messages comes first, then the second close, then the hub's close. -/
theorem run_eq (hReport : Connection.Report c c' e fx push close) (hOnce : push = true → a ∉ h.closed)
    {g : Hub D} (hg : fx.foldl (effect a svc) (h.moved a c') = g) :
    h.run a c c' svc =
      (if g.running then if close then (g.listed a push).close a else g.listed a push else g).fail
        c'.fault := by
  have hDrop : c'.effects.drop c.effects.length =
      fx ++ (if push then [.push] else []) ++ if close then [.hubClose] else [] := by
    rw [hReport.effects, List.drop_left]
  have hBody := delivered_body a svc hReport.body (h.moved a c')
  rw [hg] at hBody
  rw [Hub.run, hDrop, List.foldl_append, List.foldl_append]
  change fail (List.foldl _ (List.foldl _ (fx.foldl (effect a svc) (h.moved a c')) _) _) _ = _
  rw [hg]
  cases hRunning : g.running with
  | false => rw [effect_stopped hRunning, effect_stopped hRunning, if_neg (by simp)]
  | true =>
    have hListed : (g.listed a push).running = true := hRunning
    rw [effect_push hRunning (by rw [hBody.closed]; exact hOnce), if_pos rfl]
    cases close with
    | false => rfl
    | true => simp [effect, hListed]

/-- A step that makes the second close, or ends the reading task behind it, leaves its connection at
the front. -/
theorem Sane.head (hSane : Sane h none) (hc : h.conns[a]? = some c)
    (hReport : Connection.Report c c' e fx push close) (hClose : close = true) (hPushed : c'.pushed = true) :
    ((h.moved a c').listed a push).closed.head? = some a := by
  cases push with
  | true => rfl
  | false =>
    rw [hReport.pushed, Bool.or_false] at hPushed
    exact hSane.front hc ((hSane.listed hc).mpr hPushed) (hReport.ends.mp hClose).2

theorem Sane.not_listed (hSane : Sane h none) (hc : h.conns[a]? = some c)
    (hReport : Connection.Report c c' e fx push close) (hPush : push = true) : a ∉ h.closed := by
  intro ha
  have hWas := (hSane.listed hc).mp ha
  rw [hReport.once hPush] at hWas
  cases hWas

theorem Delivered.listed (hDelivered : Delivered h h') : Delivered (h.listed a push) (h'.listed a push) :=
  { hDelivered with closed := by simp only [Hub.listed, hDelivered.closed] }

theorem Delivered.disciplined (hDelivered : Delivered h h') (hDisciplined : Disciplined h) : Disciplined h' :=
  ⟨hDelivered.closes ▸ hDisciplined.closes, hDelivered.handouts ▸ hDisciplined.handouts⟩

/-- The connection of a task whose messages have moved. -/
theorem Delivered.own (hDelivered : Delivered (h.moved a c') h') (hc : h.conns[a]? = some c) :
    ∃ d, h'.conns[a]? = some d ∧ Connection.Queued c' d := by
  have hLt : a < h'.conns.length := by
    rw [hDelivered.length, Hub.moved, List.length_set]
    exact (List.getElem?_eq_some_iff.mp hc).1
  obtain ⟨d, hd, hQueued⟩ := hDelivered.conns (List.getElem?_eq_getElem hLt)
  rcases getElem?_set_cases hd with ⟨-, rfl⟩ | ⟨ha, -⟩
  · exact ⟨_, List.getElem?_eq_getElem hLt, hQueued⟩
  · exact absurd rfl ha

theorem pushed_of_close (hReport : Connection.Report c c' e fx push close) (hClose : close = true)
    (hLate : (∃ io, e = .incoming io) → c.incoming = .closing .readClose false → c.done = true) :
    c'.pushed = true := by
  rw [hReport.pushed, Bool.or_eq_true]
  rcases hReport.late hClose with hPush | hPushed | hIn
  · exact .inr hPush
  · exact .inl hPushed
  · have hDone := hLate (hReport.reader hClose) hIn
    exact .inl (by simpa [Connection.pushed, Connection.done, hIn] using hDone)

/-- One step of a task, with all it does outside of its connection. -/
theorem Sane.run (hSane : Sane h none) (hDisciplined : Disciplined h) (hc : h.conns[a]? = some c)
    (hReady : c.Ready e) (hTask : ∀ m, e ≠ .deliver m) (hNot : e ≠ .finish)
    (hNext : ∀ b ∈ h.closed, ∀ c ∈ h.conns[b]?, c.incoming = .finished ∨ b = a)
    (hLate : (∃ io, e = .incoming io) → c.incoming = .closing .readClose false → c.done = true) :
    Disciplined (h.run a c (c.step e) svc) ∧
      ((h.run a c (c.step e) svc).running = true → Sane (h.run a c (c.step e) svc) none) := by
  obtain ⟨hRun, hFault⟩ := hSane.reach hc
  obtain ⟨fx, push, close, hReport, -⟩ := hRun.phase.report hFault hReady hTask hNot
  have hRun' : (c.step e).Reachable := hRun.tail ⟨hFault, e, hReady, rfl⟩
  generalize c.step e = c' at hReport hRun' ⊢
  have hPushed : close = true → c'.pushed = true := fun hClose => pushed_of_close hReport hClose hLate
  have hBody := delivered_body a svc hReport.body (h.moved a c')
  rw [run_eq hReport (hSane.not_listed hc hReport) rfl]
  generalize fx.foldl (effect a svc) (h.moved a c') = g at hBody ⊢
  have hStart : Disciplined g := hBody.disciplined ⟨hDisciplined.closes, hDisciplined.handouts⟩
  cases hRunning : g.running with
  | false =>
    refine ⟨(delivered_fail g _).disciplined hStart, fun hGo => ?_⟩
    rw [if_neg (by simp)] at hGo
    rw [(running_of_fail hGo).2] at hRunning
    cases hRunning
  | true =>
    rw [if_pos rfl]
    cases close with
    | false =>
      refine ⟨(delivered_fail _ _).disciplined ⟨hStart.closes, hStart.handouts⟩, fun hGo => ?_⟩
      have hNone := (running_of_fail hGo).1
      rw [hNone]
      exact hBody.listed.sane (hSane.moved hc hNext hReport hRun' hNone hPushed)
    | true =>
      have hNone := (hReport.fault (.inl rfl)).trans hFault
      have hMoved := hSane.moved hc hNext hReport hRun' hNone hPushed
      have hHead : (g.listed a push).closed.head? = some a := by
        rw [hBody.listed.closed]
        exact hSane.head hc hReport rfl (hPushed rfl)
      obtain ⟨d, hd, hQueued⟩ := hBody.own hc
      have hFinished : d.incoming = .finished := hQueued.fields.2.1.trans (hReport.ends.mp rfl).1
      obtain ⟨hSane', hCloses, hHandouts⟩ :=
        (hBody.listed.sane hMoved).handler_close hd hFinished hHead
      rw [hNone]
      refine ⟨⟨?_, hHandouts ▸ hStart.handouts⟩, fun _ => hSane'⟩
      rw [if_pos rfl, fail, hCloses]
      exact List.forall_mem_append.mpr ⟨hStart.closes, by simp⟩

end Run

/-! ## Whole runs -/

theorem sane_listening : Sane (listening : Hub D) none := by
  constructor <;> simp [listening]

section NewConn

theorem Sane.opened (hSane : Sane h none) (hClosed : h.closed = []) :
    Sane { h with conns := h.conns ++ [.opened] } none := by
  constructor
  case reach =>
    intro b d hd
    rcases getElem?_concat_cases hd with hd | ⟨-, rfl⟩
    · exact hSane.reach hd
    · exact ⟨.refl, rfl⟩
  case listed =>
    intro b d hd
    rcases getElem?_concat_cases hd with hd | ⟨-, rfl⟩
    · exact hSane.listed hd
    · simp [hClosed, Connection.pushed, Connection.opened]
  case finishes =>
    intro b d hd
    rcases getElem?_concat_cases hd with hd | ⟨-, rfl⟩
    · exact hSane.finishes hd
    · rfl
  case finished =>
    intro b d hd hFinished
    rcases getElem?_concat_cases hd with hd | ⟨-, rfl⟩
    · exact hSane.finished hd hFinished
    · cases hFinished
  all_goals simp [hClosed]

/-- A state that its handler has left comes off the list. -/
theorem Sane.reused {b : Nat} {rest : List Nat} (hSane : Sane h none) (hClosed : h.closed = b :: rest)
    (hDone : ∀ b ∈ h.closed, ∀ c ∈ h.conns[b]?, c.incoming = .finished)
    (handouts : List (Connection D)) (reused : Bool) :
    Sane { h with closed := rest, conns := h.conns.set b .opened, handouts, reused } none := by
  have hNodup : b ∉ rest ∧ rest.Nodup := List.nodup_cons.mp (hClosed ▸ hSane.nodup)
  have hOther : ∀ {a}, a ≠ b → (a ∈ rest ↔ a ∈ h.closed) := by
    intro a ha
    rw [hClosed, List.mem_cons, or_iff_right ha]
  constructor
  case reach =>
    intro a d hd
    rcases getElem?_set_cases hd with ⟨rfl, rfl⟩ | ⟨-, hd⟩
    · exact ⟨.refl, rfl⟩
    · exact hSane.reach hd
  case listed =>
    intro a d hd
    rcases getElem?_set_cases hd with ⟨rfl, rfl⟩ | ⟨ha, hd⟩
    · simp [hNodup.1, Connection.pushed, Connection.opened]
    · rw [hOther ha]
      exact hSane.listed hd
  case bound =>
    intro a ha
    rw [List.length_set]
    exact hSane.bound (hClosed ▸ List.mem_cons_of_mem b ha)
  case nodup => exact hNodup.2
  case front =>
    intro a d hd ha hUnfinished
    rcases getElem?_set_cases hd with ⟨rfl, rfl⟩ | ⟨hab, hd⟩
    · exact absurd ha hNodup.1
    · exact absurd (hDone a ((hOther hab).mp ha) d hd) hUnfinished
  case finished =>
    intro a d hd hFinished
    rcases getElem?_set_cases hd with ⟨rfl, rfl⟩ | ⟨ha, hd⟩
    · cases hFinished
    · exact (hOther ha).mpr (hSane.finished hd hFinished)
  case finishes =>
    intro a d hd
    rcases getElem?_set_cases hd with ⟨rfl, rfl⟩ | ⟨-, hd⟩
    · rfl
    · exact hSane.finishes hd

/-- `Hub_new_or_reuse_conn` gives a state that no handler is in. -/
theorem Sane.newOrReuseConn (hSane : Sane h none) (hDisciplined : Disciplined h)
    (hDone : ∀ b ∈ h.closed, ∀ c ∈ h.conns[b]?, c.incoming = .finished) {a : Nat}
    (hNew : h.newOrReuseConn = (h', a)) :
    Disciplined h' ∧ Sane h' none ∧ h'.conns[a]? = some .opened ∧
      ∀ b ∈ h'.closed, ∀ c ∈ h'.conns[b]?, c.incoming = .finished := by
  unfold Hub.newOrReuseConn at hNew
  split at hNew
  · rename_i hClosed
    cases hNew
    exact ⟨⟨hDisciplined.closes, hDisciplined.handouts⟩, hSane.opened hClosed, by simp, by simp [hClosed]⟩
  · rename_i b rest hClosed
    have hb : b ∈ h.closed := hClosed ▸ List.mem_cons_self
    have hLt := hSane.bound hb
    have hc := List.getElem?_eq_getElem hLt
    have hFinished := hDone b hb _ hc
    rw [hc] at hNew
    cases hNew
    have hSane' := hSane.reused hClosed hDone (h.handouts ++ [h.conns[a]])
    refine ⟨⟨hDisciplined.closes, ?_⟩, hSane' _, List.getElem?_set_self hLt, ?_⟩
    · refine List.forall_mem_append.mpr ⟨hDisciplined.handouts, fun c hMem => ?_⟩
      rw [List.mem_singleton] at hMem
      subst hMem
      exact ⟨hFinished, by simpa [hFinished] using hSane.finishes hc⟩
    · intro i hi c hic
      rcases getElem?_set_cases hic with ⟨rfl, -⟩ | ⟨-, hd⟩
      · exact absurd hi (List.nodup_cons.mp (hClosed ▸ hSane.nodup)).1
      · exact hDone i (hClosed ▸ List.mem_cons_of_mem a hi) c hd

end NewConn

/-- An orderly step. -/
theorem Sane.step (hSane : Sane h none) (hDisciplined : Disciplined h) {act : Act D}
    (hReady : h.Ready act) (hOrderly : h.Orderly act) :
    Disciplined (h.step act) ∧ ((h.step act).running = true → Sane (h.step act) none) := by
  obtain ⟨hNext, hLate⟩ := hOrderly
  cases act with
  | accept io =>
    have hDone : ∀ b ∈ h.closed, ∀ c ∈ h.conns[b]?, c.incoming = .finished :=
      fun b hb c hc => (hNext b hb c hc).resolve_right (by simp [Act.handler])
    simp only [Hub.step, accept]
    cases hNew : h.newOrReuseConn with
    | mk h' a =>
      obtain ⟨hDisciplined', hSane', hc, hDone'⟩ := hSane.newOrReuseConn hDisciplined hDone hNew
      simp only
      split
      · exact hSane'.run hDisciplined' hc trivial (by simp) (by simp)
          (fun b hb c hc => .inl (hDone' b hb c hc)) (fun _ hIn => by cases hIn)
      · exact ⟨hDisciplined', fun _ => hSane'⟩
  | incoming a io svc =>
    obtain ⟨c, hc, hReady⟩ := hReady
    rw [Option.mem_def] at hc
    simp only [Hub.step, hc]
    refine hSane.run hDisciplined hc hReady (by simp) (by simp) (fun b hb d hd => ?_) (fun _ => hLate c hc)
    exact (hNext b hb d hd).imp_right fun hb => (Option.some.inj hb).symm
  | outgoing a io =>
    obtain ⟨c, hc, hReady⟩ := hReady
    rw [Option.mem_def] at hc
    simp only [Hub.step, hc]
    refine hSane.run hDisciplined hc hReady (by simp) (by simp) (fun b hb d hd => .inl ?_) (by simp)
    exact (hNext b hb d hd).resolve_right (by simp [Act.handler])

theorem Reachable.sane (hRun : h.Reachable Orderly) :
    Disciplined h ∧ (h.running = true → Sane h none) := by
  induction hRun with
  | refl => exact ⟨⟨by simp [listening], by simp [listening]⟩, fun _ => sane_listening⟩
  | tail _ hStep ih =>
    obtain ⟨hRunning, act, hReady, hOrderly, rfl⟩ := hStep
    exact (ih.2 hRunning).step ih.1 hReady hOrderly

/-- In an orderly run every handler closes its own connection, which is finished once, and a state
is handed out when its handler is through. -/
theorem closed_list_kept (hRun : h.Reachable Orderly) :
    (∀ p ∈ h.closes, p.2 = some p.1) ∧
    (∀ c ∈ h.handouts, c.incoming = .finished ∧ c.past.finishes = 1) ∧
    (h.running = true → ∀ c ∈ h.conns, c.past.finishes = if c.incoming = .finished then 1 else 0) := by
  obtain ⟨hDisciplined, hSane⟩ := hRun.sane
  refine ⟨hDisciplined.closes, hDisciplined.handouts, fun hRunning c hMem => ?_⟩
  obtain ⟨a, hc⟩ := List.mem_iff_getElem?.mp hMem
  simpa using (hSane hRunning).finishes hc

/-- A client hangs up, its writing task makes the second close, its handler comes back, and another
client takes over its state. -/
def successor : List (Act Unit) :=
  connect 0 ++ [.incoming 0 Connection.quietIo .failed, .outgoing 0 Connection.quietIo,
    .incoming 0 Connection.quietIo .failed, .accept Connection.quietIo]

theorem closed_list_kept_successor :
    let h := successor.foldl step listening
    h.closes = [(0, some 0)] ∧ h.handouts.length = 1 ∧ (∀ p ∈ h.closes, p.2 = some p.1) ∧
      ∀ c ∈ h.handouts, c.incoming = .finished ∧ c.past.finishes = 1 :=
  have hKept := closed_list_kept (.foldl (.refl : listening.Reachable Orderly)
    (by decide +kernel : Hub.Allowed Orderly listening successor))
  ⟨by decide +kernel, by decide +kernel, hKept.1, hKept.2.1⟩

/-- Two clients listen to a route that a third one sends to, so that their writing tasks are about to
run; then both hang up, and both second closes are made before the first of their handlers is back. -/
def crossed : List (Act Unit) :=
  connect 0 ++ request 0 1 (.callback none 0) ++ connect 1 ++ request 1 1 (.callback none 0) ++
    connect 2 ++ request 2 1 (.routed [⟨0, 0⟩, ⟨1, 0⟩]) ++
    [.incoming 1 Connection.quietIo .failed, .incoming 0 Connection.quietIo .failed,
      .outgoing 0 Connection.quietIo, .outgoing 1 Connection.quietIo,
      .incoming 1 Connection.quietIo .failed, .incoming 0 Connection.quietIo .failed]

/-- One of them hangs up, and a new client is there before its handler is back. -/
def takeover : List (Act Unit) :=
  connect 0 ++ request 0 1 (.callback none 0) ++ connect 1 ++ request 1 1 (.routed [⟨0, 0⟩]) ++
    [.incoming 0 Connection.quietIo .failed, .outgoing 0 Connection.quietIo, .accept Connection.quietIo]

theorem closed_list_broken :
    (∃ h : Hub Unit, h.Reachable (fun _ _ => True) ∧ h.running = true ∧ (0, some 1) ∈ h.closes ∧
      (∃ c ∈ h.conns, c.incoming = .finished ∧ c.past.finishes = 0) ∧
      ∃ c ∈ h.conns, c.past.finishes = 2) ∧
    ∃ h : Hub Unit, h.Reachable (fun _ _ => True) ∧
      ∃ c ∈ h.handouts, c.incoming = .closing .readClose false :=
  ⟨⟨crossed.foldl step listening, .foldl .refl (by decide +kernel), by decide +kernel⟩,
    takeover.foldl step listening, .foldl .refl (by decide +kernel), by decide +kernel⟩

end Hub
end Utu.Hub
