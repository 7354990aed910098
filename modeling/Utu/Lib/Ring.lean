import Mathlib

/-!
# Ring buffers

A buffer of a fixed number of slots between two indices, one slot of which is
always left free: the indices are equal exactly when the buffer is empty. The
relation `Holds` says which list a buffer stands for.
-/

namespace Ring
set_option autoImplicit false

universe u
variable {α : Type u}

structure Buffer (α : Type u) where
  slots : List (Option α)
  i : Nat
  j : Nat
deriving DecidableEq, Repr

namespace Buffer

def dim (b : Buffer α) : Nat := b.slots.length

def create (dim : Nat) : Buffer α := ⟨List.replicate dim none, 0, 0⟩

def isEmpty (b : Buffer α) : Bool := b.i == b.j

def isFull (b : Buffer α) : Bool := b.i == (b.j + 1) % b.dim

/-- What the first slot holds, whether or not it is in use. -/
def first (b : Buffer α) : Option α := (b.slots[b.i]?).join

def push (b : Buffer α) (x : α) : Buffer α :=
  ⟨b.slots.set b.j (some x), b.i, (b.j + 1) % b.dim⟩

def pop (b : Buffer α) : Buffer α := ⟨b.slots.set b.i none, (b.i + 1) % b.dim, b.j⟩

/-- The elements of `l` stand in the slots from `i` on, round the end, up to `j`. -/
structure Holds (b : Buffer α) (l : List α) : Prop where
  fits : l.length < b.dim
  start : b.i < b.dim
  stop : b.j = (b.i + l.length) % b.dim
  slot : ∀ (k : Nat) (hk : k < l.length), b.slots[(b.i + k) % b.dim]? = some (some l[k])

/-- Nothing is in use at the start, whatever the slots are. -/
theorem holds_nil {slots : List (Option α)} (hDim : 0 < slots.length) : Holds ⟨slots, 0, 0⟩ [] where
  fits := hDim
  start := hDim
  stop := (Nat.zero_mod _).symm
  slot := by
    intro k hk
    cases hk

theorem holds_create {dim : Nat} (hDim : 0 < dim) : (create dim : Buffer α).Holds [] := by
  apply holds_nil
  rwa [List.length_replicate]

variable {b : Buffer α} {l : List α}

/-- Two steps of less than a round end in different slots. -/
theorem step_ne {i k n d : Nat} (hk : k < n) (hn : n < d) : (i + k) % d ≠ (i + n) % d := by
  intro h
  have hMod : Nat.ModEq d k n := Nat.ModEq.add_left_cancel' i h
  exact Nat.ne_of_lt hk (hMod.eq_of_lt_of_lt (hk.trans hn) hn)

theorem Holds.isEmpty_iff (h : b.Holds l) : b.isEmpty = true ↔ l = [] := by
  rw [isEmpty, beq_iff_eq, h.stop]
  constructor
  · intro hSame
    by_contra hne
    have hPos := List.length_pos_iff.mpr hne
    have hStep := step_ne (i := b.i) hPos h.fits
    rw [Nat.add_zero, Nat.mod_eq_of_lt h.start] at hStep
    exact hStep hSame
  · rintro rfl
    rw [List.length_nil, Nat.add_zero, Nat.mod_eq_of_lt h.start]

theorem Holds.isFull_iff (h : b.Holds l) : b.isFull = true ↔ l.length + 1 = b.dim := by
  have hNext : (b.j + 1) % b.dim = (b.i + (l.length + 1)) % b.dim := by
    rw [h.stop, Nat.mod_add_mod, Nat.add_assoc]
  rw [isFull, beq_iff_eq, hNext]
  constructor
  · intro hSame
    by_contra hne
    have hLt : l.length + 1 < b.dim := by
      have := h.fits
      omega
    have hStep := step_ne (i := b.i) (Nat.succ_pos l.length) hLt
    rw [Nat.add_zero, Nat.mod_eq_of_lt h.start] at hStep
    exact hStep hSame
  · intro hDim
    rw [hDim, Nat.add_mod_right, Nat.mod_eq_of_lt h.start]

theorem Holds.first_eq (h : b.Holds l) (hne : l ≠ []) : b.first = l.head? := by
  have hPos := List.length_pos_iff.mpr hne
  have hSlot := h.slot 0 hPos
  rw [Nat.add_zero, Nat.mod_eq_of_lt h.start] at hSlot
  rw [first, hSlot, List.head?_eq_getElem?, List.getElem?_eq_getElem hPos]
  rfl

theorem dim_push (x : α) : (b.push x).dim = b.dim := List.length_set

theorem dim_pop : b.pop.dim = b.dim := List.length_set

theorem Holds.push (h : b.Holds l) (hFull : b.isFull = false) (x : α) :
    (b.push x).Holds (l ++ [x]) where
  fits := by
    have hRoom : l.length + 1 ≠ b.dim := by
      intro hDim
      rw [h.isFull_iff.mpr hDim] at hFull
      cases hFull
    have hFits := h.fits
    rw [dim_push, List.length_append, List.length_singleton]
    omega
  start := by
    rw [dim_push]
    exact h.start
  stop := by
    rw [dim_push, List.length_append, List.length_singleton]
    change (b.j + 1) % b.dim = _
    rw [h.stop, Nat.mod_add_mod, Nat.add_assoc]
    rfl
  slot := by
    intro k hk
    rw [List.length_append, List.length_singleton] at hk
    rw [dim_push]
    change (b.slots.set b.j (some x))[(b.i + k) % b.dim]? = _
    by_cases hLast : k = l.length
    · subst hLast
      have hIn : (b.i + l.length) % b.dim < b.slots.length :=
        Nat.mod_lt _ (Nat.lt_of_le_of_lt (Nat.zero_le _) h.start)
      rw [h.stop, List.getElem?_set_self hIn]
      simp
    · have hk' : k < l.length := by omega
      rw [h.stop, List.getElem?_set_ne (step_ne hk' h.fits).symm, h.slot k hk',
        List.getElem_append_left hk']

theorem Holds.pop {x : α} (h : b.Holds (x :: l)) : b.pop.Holds l where
  fits := by
    have hFits := h.fits
    rw [List.length_cons] at hFits
    rw [dim_pop]
    omega
  start := by
    rw [dim_pop]
    exact Nat.mod_lt _ (Nat.lt_of_le_of_lt (Nat.zero_le _) h.start)
  stop := by
    rw [dim_pop]
    change b.j = ((b.i + 1) % b.dim + l.length) % b.dim
    rw [h.stop, Nat.mod_add_mod, List.length_cons, Nat.add_assoc, Nat.add_comm 1]
  slot := by
    intro k hk
    have hNext : (b.pop.i + k) % b.dim = (b.i + (k + 1)) % b.dim := by
      change ((b.i + 1) % b.dim + k) % b.dim = _
      rw [Nat.mod_add_mod, Nat.add_assoc, Nat.add_comm 1]
    have hLt : k + 1 < (x :: l).length := Nat.succ_lt_succ hk
    have hOther : b.i ≠ (b.i + (k + 1)) % b.dim := by
      have hStep := step_ne (i := b.i) (Nat.succ_pos k) (Nat.lt_trans hLt h.fits)
      rwa [Nat.add_zero, Nat.mod_eq_of_lt h.start] at hStep
    rw [dim_pop, hNext]
    change (b.slots.set b.i none)[(b.i + (k + 1)) % b.dim]? = _
    rw [List.getElem?_set_ne hOther, h.slot (k + 1) hLt]
    rfl

theorem Holds.unique {l' : List α} (h : b.Holds l) (h' : b.Holds l') : l = l' := by
  have hLen : l.length = l'.length := by
    have hStop := h.stop.symm.trans h'.stop
    rcases Nat.lt_trichotomy l.length l'.length with hLt | hEq | hLt
    · exact absurd hStop (step_ne hLt h'.fits)
    · exact hEq
    · exact absurd hStop.symm (step_ne hLt h.fits)
  refine List.ext_getElem hLen fun k hk hk' => ?_
  have hSame := (h.slot k hk).symm.trans (h'.slot k hk')
  simpa using hSame

end Buffer

end Ring
