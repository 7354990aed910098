import Mathlib

/-!
# Reference counts

Objects with counters of a fixed width. An object is freed when its counter
comes back to zero; a counter below zero, and a freed object, must not be
touched. The relation `Covers` says that the counters count the references
that are held.
-/

namespace Ledger
set_option autoImplicit false

/-- An entry of a list that was set at one place is the new one, or an old one from elsewhere. -/
theorem getElem?_set_cases {α : Type*} {l : List α} {i j : Nat} {x y : α}
    (h : (l.set i x)[j]? = some y) : j = i ∧ y = x ∨ j ≠ i ∧ l[j]? = some y := by
  by_cases hj : i = j
  · subst hj
    have hLt : i < l.length := by
      rw [← List.length_set]
      exact (List.getElem?_eq_some_iff.mp h).1
    rw [List.getElem?_set_self hLt] at h
    exact .inl ⟨rfl, (Option.some.inj h).symm⟩
  · rw [List.getElem?_set_ne hj] at h
    exact .inr ⟨Ne.symm hj, h⟩

theorem getElem?_concat_cases {α : Type*} {l : List α} {j : Nat} {x y : α}
    (h : (l ++ [x])[j]? = some y) : l[j]? = some y ∨ j = l.length ∧ y = x := by
  rcases Nat.lt_trichotomy j l.length with hLt | rfl | hGt
  · exact .inl (by rwa [List.getElem?_append_left hLt] at h)
  · exact .inr ⟨rfl, by simpa [eq_comm] using h⟩
  · rw [List.getElem?_eq_none (by simpa using hGt)] at h
    cases h

/-- A counter, how often it has been incremented and decremented, and whether its object is freed. -/
structure Counter where
  count : Int
  taken : Nat
  given : Nat
  freed : Bool
deriving DecidableEq, Repr

inductive Misuse where
  | dangling
  | overdrawn
deriving DecidableEq, Repr

/-- The counters of all objects there have been, and the first misuse of one. -/
structure Counters where
  counters : List Counter
  misuse : Option Misuse
deriving DecidableEq, Repr

namespace Counters

def empty : Counters := ⟨[], none⟩

/-- The number of the next object. -/
def next (cs : Counters) : Nat := cs.counters.length

def alloc (cs : Counters) : Counters :=
  { cs with counters := cs.counters ++ [⟨0, 0, 0, false⟩] }

variable (bits : Nat)

def retain (cs : Counters) (ref : Nat) : Counters :=
  match cs.counters[ref]? with
  | none => { cs with misuse := some .dangling }
  | some k =>
    if k.freed then { cs with misuse := some .dangling }
    else
      let k' := { k with count := (k.count + 1).bmod (2 ^ bits), taken := k.taken + 1 }
      { cs with counters := cs.counters.set ref k' }

def release (cs : Counters) (ref : Nat) : Counters :=
  match cs.counters[ref]? with
  | none => { cs with misuse := some .dangling }
  | some k =>
    if k.freed then { cs with misuse := some .dangling }
    else
      let count := (k.count - 1).bmod (2 ^ bits)
      let k' := { k with count, given := k.given + 1, freed := decide (count = 0) }
      { counters := cs.counters.set ref k'
        misuse := if count < 0 then some .overdrawn else cs.misuse }

/-- The object is there. -/
def Alive (cs : Counters) (ref : Nat) : Prop := ∃ k, cs.counters[ref]? = some k ∧ k.freed = false

/-- The counters count the references that are held, and only what is not held is freed. -/
structure Covers (cs : Counters) (held : Nat → Nat) : Prop where
  count : ∀ {ref k}, cs.counters[ref]? = some k → k.count = (held ref : Int).bmod (2 ^ bits)
  paid : ∀ {ref k}, cs.counters[ref]? = some k → k.taken = k.given + held ref
  freed : ∀ {ref k}, cs.counters[ref]? = some k → k.freed = true → held ref = 0
  fresh : ∀ {ref}, cs.next ≤ ref → held ref = 0
  misuse : cs.misuse = none

variable {bits} {cs : Counters} {held held' : Nat → Nat} {ref : Nat}

theorem covers_empty : Covers bits empty fun _ => 0 :=
  ⟨by simp [empty], by simp [empty], by simp [empty], fun _ => rfl, rfl⟩

theorem next_alloc : cs.alloc.next = cs.next + 1 := by simp [alloc, next]

theorem alive_alloc : cs.alloc.Alive cs.next := by
  refine ⟨⟨0, 0, 0, false⟩, ?_, rfl⟩
  simp [alloc, next]

theorem Alive.retain {other : Nat} (h : cs.Alive ref) : (cs.retain bits other).Alive ref := by
  obtain ⟨k, hk, hFreed⟩ := h
  unfold Counters.retain
  split
  · exact ⟨k, hk, hFreed⟩
  · rename_i k' hk'
    split
    · exact ⟨k, hk, hFreed⟩
    · by_cases hRef : other = ref
      · subst hRef
        rw [hk] at hk'
        cases hk'
        exact ⟨_, List.getElem?_set_self (List.getElem?_eq_some_iff.mp hk).1, hFreed⟩
      · exact ⟨k, (List.getElem?_set_ne hRef).trans hk, hFreed⟩

namespace Covers

theorem congr (h : Covers bits cs held) (hHeld : ∀ ref, held ref = held' ref) : Covers bits cs held' := by
  rwa [← funext hHeld]

/-- Whatever is held is there. -/
theorem alive (h : Covers bits cs held) (hHeld : 0 < held ref) : cs.Alive ref := by
  have hRef : ref < cs.next := by
    by_contra hOut
    exact Nat.ne_of_gt hHeld (h.fresh (Nat.le_of_not_lt hOut))
  refine ⟨cs.counters[ref], List.getElem?_eq_getElem hRef, ?_⟩
  by_contra hFreed
  exact Nat.ne_of_gt hHeld (h.freed (List.getElem?_eq_getElem hRef) (by simpa using hFreed))

theorem alloc (h : Covers bits cs held) : Covers bits cs.alloc held := by
  have hZero : held cs.counters.length = 0 := h.fresh (Nat.le_refl _)
  constructor
  · intro ref k hk
    rcases getElem?_concat_cases hk with hk | ⟨rfl, rfl⟩
    · exact h.count hk
    · simp [hZero]
  · intro ref k hk
    rcases getElem?_concat_cases hk with hk | ⟨rfl, rfl⟩
    · exact h.paid hk
    · simp [hZero]
  · intro ref k hk hFreed
    rcases getElem?_concat_cases hk with hk | ⟨rfl, rfl⟩
    · exact h.freed hk hFreed
    · cases hFreed
  · intro ref hRef
    rw [next_alloc] at hRef
    exact h.fresh (Nat.le_of_succ_le hRef)
  · exact h.misuse

/-- One counter is set, and the references to its object with it. -/
theorem set (h : Covers bits cs held) {k : Counter} {misuse : Option Misuse} (hRef : ref < cs.next)
    (hOther : ∀ i, i ≠ ref → held' i = held i) (hCount : k.count = (held' ref : Int).bmod (2 ^ bits))
    (hPaid : k.taken = k.given + held' ref) (hFreed : k.freed = true → held' ref = 0)
    (hMisuse : misuse = none) : Covers bits ⟨cs.counters.set ref k, misuse⟩ held' := by
  constructor
  · intro i k' hk'
    rcases getElem?_set_cases hk' with ⟨rfl, rfl⟩ | ⟨hi, hk'⟩
    · exact hCount
    · rw [hOther i hi]
      exact h.count hk'
  · intro i k' hk'
    rcases getElem?_set_cases hk' with ⟨rfl, rfl⟩ | ⟨hi, hk'⟩
    · exact hPaid
    · rw [hOther i hi]
      exact h.paid hk'
  · intro i k' hk' hGone
    rcases getElem?_set_cases hk' with ⟨rfl, rfl⟩ | ⟨hi, hk'⟩
    · exact hFreed hGone
    · rw [hOther i hi]
      exact h.freed hk' hGone
  · intro i hi
    rw [next, List.length_set] at hi
    rw [hOther i (Nat.ne_of_gt (Nat.lt_of_lt_of_le hRef hi))]
    exact h.fresh hi
  · exact hMisuse

theorem retain (h : Covers bits cs held) (hAlive : cs.Alive ref)
    (hHeld : ∀ i, held' i = held i + if ref = i then 1 else 0) :
    Covers bits (cs.retain bits ref) held' := by
  obtain ⟨k, hk, hFreed⟩ := hAlive
  have hRef : held' ref = held ref + 1 := by rw [hHeld, if_pos rfl]
  have hOther : ∀ i, i ≠ ref → held' i = held i := fun i hi => by
    rw [hHeld, if_neg (Ne.symm hi), Nat.add_zero]
  simp only [Counters.retain, hk, hFreed, Bool.false_eq_true, if_false]
  apply h.set (List.getElem?_eq_some_iff.mp hk).1 hOther
  · simp [h.count hk, hRef]
  · have hPaid := h.paid hk
    simp only [hRef]
    omega
  · simp
  · exact h.misuse

/-- A reference that is held can be given back, as long as the counter has not run over. -/
theorem release (h : Covers bits cs held) (hHeld : ∀ i, held i = held' i + if ref = i then 1 else 0)
    (hBound : held ref * 2 < 2 ^ bits) : Covers bits (cs.release bits ref) held' := by
  have hRef : held ref = held' ref + 1 := by rw [hHeld, if_pos rfl]
  have hOther : ∀ i, i ≠ ref → held' i = held i := fun i hi => by
    rw [hHeld, if_neg (Ne.symm hi), Nat.add_zero]
  have hPos : 0 < held ref := by omega
  obtain ⟨k, hk, hFreed⟩ := h.alive hPos
  have hCount : (k.count - 1).bmod (2 ^ bits) = held' ref := by
    rw [h.count hk, Int.bmod_sub_bmod, hRef, Nat.cast_add, Nat.cast_one, Int.add_sub_cancel]
    apply Int.bmod_eq_of_le_mul_two
    · omega
    · have hSmall : held' ref * 2 < 2 ^ bits := by omega
      exact_mod_cast hSmall
  simp only [Counters.release, hk, hFreed, Bool.false_eq_true, if_false, hCount]
  apply h.set (List.getElem?_eq_some_iff.mp hk).1 hOther
  · show (held' ref : Int) = _
    rw [← hCount, Int.bmod_bmod]
  · have hPaid := h.paid hk
    simp only [hRef] at hPaid ⊢
    omega
  · simp
  · rw [if_neg (by omega)]
    exact h.misuse

end Covers

end Counters

end Ledger
