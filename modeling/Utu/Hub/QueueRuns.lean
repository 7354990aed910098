import Utu.Hub.Queue

/-!
# Queues as bounded lists

`MsgQueue_create` leaves the slots as `malloc` gives them. A run of calls from
there on is one of a list of fewer than `dim` messages: insertions at its end,
deletions at its head, with one `Message_ref_inc` for each insertion that
succeeds and one `Message_destroy` for each deletion.
-/

namespace Utu.Hub
open Ring Outcome
set_option autoImplicit false

variable {D : Type}

inductive QueueCall (D : Type) where
  | add (m : Message D)
  | delete
  | getFirst
deriving DecidableEq, Repr

/-- The calls that touch the count of a message. -/
inductive MessageCall (D : Type) where
  | refInc (m : Message D)
  | destroy (m : Message D)
deriving DecidableEq, Repr

/-- The number that `MsgQueue_add` and `MsgQueue_delete` return, or the pointer `MsgQueue_get_first` reads. -/
inductive QueueReturn (D : Type) where
  | code (rc : Nat)
  | slot (m : Option (Message D))
deriving DecidableEq, Repr

/-- What a call returns, and the calls it makes on messages. -/
structure QueueEvent (D : Type) where
  call : QueueCall D
  result : QueueReturn D
  touched : List (MessageCall D)
deriving DecidableEq, Repr

namespace MsgQueue

/-- `MsgQueue_create`, with what `malloc` leaves in the slots -/
def malloced (slots : List (Option (Message D))) : MsgQueue D := ⟨⟨slots, 0, 0⟩, false⟩

def call (q : MsgQueue D) : QueueCall D → MsgQueue D × QueueEvent D
  | .add m =>
    match q.add m with
    | (true, q) => (q, ⟨.add m, .code 1, [.refInc m]⟩)
    | (false, q) => (q, ⟨.add m, .code 0, []⟩)
  | .delete =>
    match q.delete with
    | (some m, q) => (q, ⟨.delete, .code 1, [.destroy m]⟩)
    | (none, q) => (q, ⟨.delete, .code 0, []⟩)
  | .getFirst => (q, ⟨.getFirst, .slot q.first, []⟩)

/-- The queue after some calls, and what happened at each. -/
def runCalls : List (QueueCall D) → MsgQueue D → MsgQueue D × List (QueueEvent D)
  | [], q => (q, [])
  | c :: calls, q =>
    let (q, event) := q.call c
    let (q, events) := runCalls calls q
    (q, event :: events)

/-- `while(!MsgQueue_is_empty(q)) MsgQueue_delete(q)`, with the calls it makes on messages -/
def destroyLoop : Nat → MsgQueue D → Run (List (MessageCall D))
  | 0, _ => throw .outOfFuel
  | fuel + 1, q =>
    if q.isEmpty then pure []
    else do
      let (q, event) := q.call .delete
      let rest ← destroyLoop fuel q
      pure (event.touched ++ rest)

end MsgQueue

/-! ## Bounded lists -/

/-- A call on a list of fewer than `dim` messages; the first slot of an empty queue can hold anything. -/
inductive FifoStep (dim : Nat) : List (Message D) → QueueEvent D → List (Message D) → Prop
  | added {l : List (Message D)} (m : Message D) (hRoom : l.length + 1 < dim) :
      FifoStep dim l ⟨.add m, .code 1, [.refInc m]⟩ (l ++ [m])
  | full {l : List (Message D)} (m : Message D) (hFull : l.length + 1 = dim) :
      FifoStep dim l ⟨.add m, .code 0, []⟩ l
  | deleted (m : Message D) (l : List (Message D)) :
      FifoStep dim (m :: l) ⟨.delete, .code 1, [.destroy m]⟩ l
  | empty : FifoStep dim [] ⟨.delete, .code 0, []⟩ []
  | first (m : Message D) (l : List (Message D)) :
      FifoStep dim (m :: l) ⟨.getFirst, .slot (some m), []⟩ (m :: l)
  | stale (m : Option (Message D)) : FifoStep dim [] ⟨.getFirst, .slot m, []⟩ []

inductive FifoRuns (dim : Nat) : List (Message D) → List (QueueEvent D) → List (Message D) → Prop
  | nil (l : List (Message D)) : FifoRuns dim l [] l
  | cons {l l' l'' : List (Message D)} {event : QueueEvent D} {events : List (QueueEvent D)}
      (hStep : FifoStep dim l event l') (hRest : FifoRuns dim l' events l'') :
      FifoRuns dim l (event :: events) l''

namespace MsgQueue
variable {q : MsgQueue D} {l : List (Message D)}

theorem Holds.isFull_iff (h : q.Holds l) : q.isFull = true ↔ l.length + 1 = q.ring.dim :=
  Buffer.Holds.isFull_iff h

theorem Holds.nonempty {m : Message D} (h : q.Holds (m :: l)) : ¬q.isEmpty = true :=
  fun hEmpty => List.cons_ne_nil m l (h.isEmpty_iff.mp hEmpty)

theorem Holds.call_add_full (h : q.Holds l) (hFull : l.length + 1 = q.ring.dim) (m : Message D) :
    q.call (.add m) = (q, ⟨.add m, .code 0, []⟩) := by
  rw [MsgQueue.call, add_full (h.isFull_iff.mpr hFull)]

theorem Holds.call_add (h : q.Holds l) (hNot : l.length + 1 ≠ q.ring.dim) (m : Message D) :
    ∃ q', q.call (.add m) = (q', ⟨.add m, .code 1, [.refInc m]⟩) ∧ q'.Holds (l ++ [m]) ∧
      q'.ring.dim = q.ring.dim := by
  have hFull : q.isFull = false := by
    rw [← Bool.not_eq_true, h.isFull_iff]
    exact hNot
  refine ⟨{ q with ring := q.ring.push m }, ?_, Buffer.Holds.push h hFull m, Buffer.dim_push m⟩
  simp only [MsgQueue.call, MsgQueue.add, hFull]
  rfl

theorem Holds.call_delete_nil (h : q.Holds []) : q.call .delete = (q, ⟨.delete, .code 0, []⟩) := by
  rw [MsgQueue.call, h.delete_nil]

theorem Holds.call_delete {m : Message D} (h : q.Holds (m :: l)) :
    ∃ q', q.call .delete = (q', ⟨.delete, .code 1, [.destroy m]⟩) ∧ q'.Holds l ∧
      q'.ring.dim = q.ring.dim := by
  refine ⟨{ q with ring := q.ring.pop }, ?_, Buffer.Holds.pop h, Buffer.dim_pop⟩
  rw [MsgQueue.call, MsgQueue.delete, if_neg h.nonempty, h.first_cons]

/-- Every call is one on the list, and keeps the number of slots. -/
theorem Holds.call (h : q.Holds l) (c : QueueCall D) :
    ∃ l', FifoStep q.ring.dim l (q.call c).2 l' ∧ (q.call c).1.Holds l' ∧
      (q.call c).1.ring.dim = q.ring.dim := by
  cases c with
  | add m =>
    by_cases hFull : l.length + 1 = q.ring.dim
    · rw [h.call_add_full hFull]
      exact ⟨l, .full m hFull, h, rfl⟩
    · obtain ⟨q', hCall, hHolds, hDim⟩ := h.call_add hFull m
      rw [hCall]
      exact ⟨l ++ [m], .added m (Nat.lt_of_le_of_ne h.fits hFull), hHolds, hDim⟩
  | delete =>
    cases l with
    | nil =>
      rw [h.call_delete_nil]
      exact ⟨[], .empty, h, rfl⟩
    | cons m l =>
      obtain ⟨q', hCall, hHolds, hDim⟩ := h.call_delete
      rw [hCall]
      exact ⟨l, .deleted m l, hHolds, hDim⟩
  | getFirst =>
    cases l with
    | nil => exact ⟨[], .stale q.first, h, rfl⟩
    | cons m l =>
      have hCall : q.call .getFirst = (q, ⟨.getFirst, .slot (some m), []⟩) := by
        rw [MsgQueue.call, h.first_cons]
      rw [hCall]
      exact ⟨m :: l, .first m l, h, rfl⟩

theorem Holds.runCalls (h : q.Holds l) (calls : List (QueueCall D)) :
    ∃ l', FifoRuns q.ring.dim l (q.runCalls calls).2 l' ∧ (q.runCalls calls).1.Holds l' ∧
      (q.runCalls calls).1.ring.dim = q.ring.dim := by
  induction calls generalizing q l with
  | nil => exact ⟨l, .nil l, h, rfl⟩
  | cons c calls ih =>
    obtain ⟨l', hStep, hHolds, hDim⟩ := h.call c
    obtain ⟨l'', hRuns, hEnd, hKept⟩ := ih hHolds
    rw [hDim] at hRuns hKept
    exact ⟨l'', .cons hStep hRuns, hEnd, hKept⟩

/-- The loop stops when every message has been destroyed. -/
theorem Holds.destroyLoop {fuel : Nat} (h : q.Holds l) (hFuel : l.length < fuel) :
    q.destroyLoop fuel = .ok (l.map .destroy) := by
  induction fuel generalizing q l with
  | zero => cases hFuel
  | succ fuel ih =>
    cases l with
    | nil =>
      rw [MsgQueue.destroyLoop, if_pos (h.isEmpty_iff.mpr rfl)]
      rfl
    | cons m l =>
      obtain ⟨q', hCall, hRest, -⟩ := h.call_delete
      rw [MsgQueue.destroyLoop, if_neg h.nonempty, hCall]
      dsimp only
      rw [bind_of_ok (ih hRest (Nat.lt_of_succ_lt_succ hFuel))]
      rfl

theorem Holds.add_refused_iff (h : q.Holds l) (m : Message D) :
    (q.call (.add m)).2.result = .code 0 ↔ l.length + 1 = q.ring.dim := by
  constructor
  · intro hRefused
    by_contra hNot
    obtain ⟨q', hCall, -⟩ := h.call_add hNot m
    rw [hCall] at hRefused
    cases hRefused
  · intro hFull
    rw [h.call_add_full hFull]

theorem Holds.delete_refused_iff (h : q.Holds l) : (q.call .delete).2.result = .code 0 ↔ l = [] := by
  cases l with
  | nil =>
    rw [h.call_delete_nil]
    exact iff_of_true rfl rfl
  | cons m l =>
    obtain ⟨q', hCall, -⟩ := h.call_delete
    rw [hCall]
    exact iff_of_false (by simp) (List.cons_ne_nil m l)

theorem Holds.first_ne_none (h : q.Holds l) (hNonempty : q.isEmpty = false) : q.first ≠ none := by
  cases l with
  | nil =>
    rw [h.isEmpty_iff.mpr rfl] at hNonempty
    cases hNonempty
  | cons m l =>
    rw [h.first_cons]
    exact Option.some_ne_none m

/-- A queue of any number of slots, with anything in them, is a bounded list: after every run of calls it
holds what was added and not deleted, `MsgQueue_add` is refused when one slot is left, no slot in use is
empty, and `MsgQueue_destroy` gives back what is held. -/
theorem refines_fifo {slots : List (Option (Message D))} (hDim : 1 ≤ slots.length) (calls : List (QueueCall D)) :
    ∃ q events l, (malloced slots).runCalls calls = (q, events) ∧ FifoRuns slots.length [] events l ∧
      q.Holds l ∧ q.ring.dim = slots.length ∧ q.ring.i < slots.length ∧ q.ring.j < slots.length ∧
      (∀ m, ((q.call (.add m)).2.result = .code 0 ↔ l.length + 1 = slots.length) ∧
        (l.length + 1 = slots.length → q.call (.add m) = (q, ⟨.add m, .code 0, []⟩))) ∧
      ((q.call .delete).2.result = .code 0 ↔ l = []) ∧
      (q.isEmpty = false → q.first ≠ none) ∧
      q.destroyLoop slots.length = .ok (l.map .destroy) := by
  have hStart : (malloced slots).Holds [] := Buffer.holds_nil hDim
  obtain ⟨l, hRuns, hHolds, hKept⟩ := hStart.runCalls calls
  change _ = slots.length at hKept
  refine ⟨_, _, l, rfl, hRuns, hHolds, hKept, ?_, ?_, ?_, hHolds.delete_refused_iff, hHolds.first_ne_none, ?_⟩
  · rw [← hKept]
    exact hHolds.start
  · rw [hHolds.stop, hKept]
    exact Nat.mod_lt _ hDim
  · intro m
    rw [← hKept]
    exact ⟨hHolds.add_refused_iff m, fun hFull => hHolds.call_add_full hFull m⟩
  · apply hHolds.destroyLoop
    rw [← hKept]
    exact hHolds.fits

/-- Three slots take two messages; the one that is left is given back. -/
theorem refines_fifo_three :
    let m : Nat → Message Unit := fun ref => ⟨ref, 0, .nil⟩
    ∃ q events, (malloced [some (m 9), none, some (m 9)]).runCalls [.add (m 1), .add (m 2), .add (m 3), .delete] =
        (q, events) ∧
      events.map QueueEvent.result = [.code 1, .code 1, .code 0, .code 1] ∧
      FifoRuns 3 [] events [m 2] ∧ q.destroyLoop 3 = .ok [.destroy (m 2)] := by
  intro m
  obtain ⟨q, events, l, hRun, hFifo, -, -, -, -, -, -, -, hDestroy⟩ :=
    refines_fifo (show 1 ≤ [some (m 9), none, some (m 9)].length by decide)
      [.add (m 1), .add (m 2), .add (m 3), .delete]
  have hQueue : q = ⟨⟨[none, some (m 2), some (m 9)], 1, 2⟩, false⟩ := by
    apply (congrArg Prod.fst hRun).symm.trans
    decide +kernel
  have hResults : events.map QueueEvent.result = [.code 1, .code 1, .code 0, .code 1] := by
    apply (congrArg (fun r => r.2.map QueueEvent.result) hRun).symm.trans
    decide +kernel
  have hLoop : q.destroyLoop 3 = .ok [.destroy (m 2)] := by
    rw [hQueue]
    decide +kernel
  have hLeft : [MessageCall.destroy (m 2)] = l.map .destroy := Except.ok.inj (hLoop.symm.trans hDestroy)
  obtain ⟨m', hl, hm'⟩ := List.map_eq_singleton_iff.mp hLeft.symm
  cases hm'
  rw [hl] at hFifo
  exact ⟨q, events, hRun, hResults, hFifo, hLoop⟩

end MsgQueue

end Utu.Hub
