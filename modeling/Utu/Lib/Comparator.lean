import Mathlib

/-!
# Comparators with integer results

A comparator tells by the sign of its result how two elements stand. It can be
a total preorder on some elements only, and search and sorting ask no more. A
search narrows two bounds around the place where an element would be: all
before it compare below, all behind it above.
-/

namespace Comparator
set_option autoImplicit false

universe u
variable {α : Type u} {cmp : α → α → Int} {S : Set α}

/-- A total preorder on `S`. -/
structure Preorders (cmp : α → α → Int) (S : Set α) : Prop where
  flip : ∀ {x y}, x ∈ S → y ∈ S → (cmp x y < 0 ↔ 0 < cmp y x)
  trans : ∀ {x y z}, x ∈ S → y ∈ S → z ∈ S → cmp x y ≤ 0 → cmp y z ≤ 0 → cmp x z ≤ 0

/-- A total order on `S`. -/
structure Orders (cmp : α → α → Int) (S : Set α) : Prop extends Preorders cmp S where
  eq : ∀ {x y}, x ∈ S → y ∈ S → (cmp x y = 0 ↔ x = y)

theorem Preorders.mono {T : Set α} (h : Preorders cmp S) (hT : T ⊆ S) : Preorders cmp T :=
  ⟨fun hx hy => h.flip (hT hx) (hT hy), fun hx hy hz => h.trans (hT hx) (hT hy) (hT hz)⟩

theorem Orders.mono {T : Set α} (h : Orders cmp S) (hT : T ⊆ S) : Orders cmp T :=
  ⟨h.toPreorders.mono hT, fun hx hy => h.eq (hT hx) (hT hy)⟩

theorem Preorders.total (h : Preorders cmp S) {x y : α} (hx : x ∈ S) (hy : y ∈ S) :
    cmp x y ≤ 0 ∨ cmp y x ≤ 0 := by
  have hFlip := h.flip hy hx
  omega

/-- Only the signs count. -/
theorem Orders.of_signs {cmp' : α → α → Int} (h : Orders cmp S)
    (hBelow : ∀ x ∈ S, ∀ y ∈ S, (cmp' x y < 0 ↔ cmp x y < 0))
    (hAbove : ∀ x ∈ S, ∀ y ∈ S, (0 < cmp' x y ↔ 0 < cmp x y)) : Orders cmp' S where
  flip := by
    intro x y hx hy
    rw [hBelow x hx y hy, hAbove y hy x hx, h.flip hx hy]
  trans := by
    intro x y z hx hy hz hxy hyz
    rw [← Int.not_lt, hAbove x hx z hz, Int.not_lt]
    rw [← Int.not_lt, hAbove x hx y hy, Int.not_lt] at hxy
    rw [← Int.not_lt, hAbove y hy z hz, Int.not_lt] at hyz
    exact h.trans hx hy hz hxy hyz
  eq := by
    intro x y hx hy
    have hLt := hBelow x hx y hy
    have hGt := hAbove x hx y hy
    rw [← h.eq hx hy]
    omega

/-! ## Sorted lists -/

def Sorted (cmp : α → α → Int) (l : List α) : Prop := l.Pairwise fun x y => cmp x y ≤ 0

theorem Sorted.insert {before behind : List α} (hSorted : Sorted cmp (before ++ behind)) {x : α}
    (hBefore : ∀ y ∈ before, cmp y x ≤ 0) (hBehind : ∀ y ∈ behind, cmp x y ≤ 0) :
    Sorted cmp (before ++ x :: behind) := by
  obtain ⟨hFront, hBack, hCross⟩ := List.pairwise_append.mp hSorted
  apply List.pairwise_append.mpr
  refine ⟨hFront, List.pairwise_cons.mpr ⟨hBehind, hBack⟩, ?_⟩
  intro y hy z hz
  rcases List.mem_cons.mp hz with rfl | hz
  · exact hBefore y hy
  · exact hCross y hy z hz

def sort (cmp : α → α → Int) : List α → List α := List.insertionSort fun x y => cmp x y ≤ 0

theorem sort_perm (l : List α) : (sort cmp l).Perm l := List.perm_insertionSort _ l

theorem sorted_orderedInsert (hOrder : Preorders cmp S) {x : α} (hx : x ∈ S) {l : List α}
    (hS : ∀ y ∈ l, y ∈ S) (hSorted : Sorted cmp l) :
    Sorted cmp (l.orderedInsert (fun x y => cmp x y ≤ 0) x) := by
  induction l with
  | nil => exact List.pairwise_singleton _ x
  | cons y l ih =>
    obtain ⟨hy, hl⟩ := List.forall_mem_cons.mp hS
    obtain ⟨hFirst, hRest⟩ := List.pairwise_cons.mp hSorted
    rw [List.orderedInsert_cons]
    split
    · rename_i hLe
      apply List.pairwise_cons.mpr
      refine ⟨?_, hSorted⟩
      intro z hz
      rcases List.mem_cons.mp hz with rfl | hz
      · exact hLe
      · exact hOrder.trans hx hy (hl z hz) hLe (hFirst z hz)
    · rename_i hNot
      apply List.pairwise_cons.mpr
      refine ⟨?_, ih hl hRest⟩
      intro z hz
      rcases List.mem_cons.mp ((List.perm_orderedInsert _ x l).mem_iff.mp hz) with rfl | hz
      · exact (hOrder.total hy hx).resolve_right hNot
      · exact hFirst z hz

theorem sort_sorted {l : List α} (hOrder : Preorders cmp {x | x ∈ l}) : Sorted cmp (sort cmp l) := by
  induction l with
  | nil => exact List.Pairwise.nil
  | cons x l ih =>
    have hTail : Preorders cmp {y | y ∈ l} := hOrder.mono fun y hy => List.mem_cons_of_mem x hy
    apply sorted_orderedInsert hOrder (List.mem_cons_self : x ∈ x :: l) _ (ih hTail)
    intro y hy
    exact List.mem_cons_of_mem x ((sort_perm l).mem_iff.mp hy)

/-! ## Search -/

/-- Along the list the results for an element go from below to above. -/
def Split (p : α → Int) (l : List α) : Prop :=
  l.Pairwise fun x y => (p y < 0 → p x < 0) ∧ (0 < p x → 0 < p y)

theorem Sorted.split (hOrder : Preorders cmp S) {l : List α} (hS : ∀ x ∈ l, x ∈ S)
    (hSorted : Sorted cmp l) {key : α} (hKey : key ∈ S) : Split (cmp · key) l := by
  apply List.Pairwise.imp_of_mem _ hSorted
  intro x y hx hy hLe
  have hTrans := hOrder.trans (hS x hx) (hS y hy) hKey hLe
  have hBack := hOrder.trans hKey (hS x hx) (hS y hy)
  have hFlipX := hOrder.flip (hS x hx) hKey
  have hFlipX' := hOrder.flip hKey (hS x hx)
  have hFlipY := hOrder.flip (hS y hy) hKey
  have hFlipY' := hOrder.flip hKey (hS y hy)
  beta_reduce
  constructor
  · intro hBelow
    by_contra hNot
    have := hBack (by omega) hLe
    omega
  · intro hAbove
    by_contra hNot
    have := hTrans (by omega)
    omega

/-- The same the other way round: what the key is to the elements. -/
theorem Sorted.split_flip (hOrder : Preorders cmp S) {l : List α} (hS : ∀ x ∈ l, x ∈ S)
    (hSorted : Sorted cmp l) {key : α} (hKey : key ∈ S) : Split (fun x => -cmp key x) l := by
  apply List.Pairwise.imp_of_mem _ (hSorted.split hOrder hS hKey)
  intro x y hx hy hSplit
  have hX := hOrder.flip (hS x hx) hKey
  have hX' := hOrder.flip hKey (hS x hx)
  have hY := hOrder.flip (hS y hy) hKey
  have hY' := hOrder.flip hKey (hS y hy)
  beta_reduce at hSplit ⊢
  omega

/-- All before `lo` are below, all from `hi` on above. -/
def Bounds (p : α → Int) (l : List α) (lo hi : Nat) : Prop :=
  (∀ i x, l[i]? = some x → i < lo → p x < 0) ∧ ∀ i x, l[i]? = some x → hi ≤ i → 0 < p x

theorem Bounds.whole (p : α → Int) (l : List α) : Bounds p l 0 l.length := by
  constructor
  · intro i x _ hi
    omega
  · intro i x hx hi
    obtain ⟨hLt, -⟩ := List.getElem?_eq_some_iff.mp hx
    omega

theorem Split.get {p : α → Int} {l : List α} (h : Split p l) {i j : Nat} {x y : α} (hij : i < j)
    (hx : l[i]? = some x) (hy : l[j]? = some y) : (p y < 0 → p x < 0) ∧ (0 < p x → 0 < p y) := by
  obtain ⟨hi, rfl⟩ := List.getElem?_eq_some_iff.mp hx
  obtain ⟨hj, rfl⟩ := List.getElem?_eq_some_iff.mp hy
  exact List.pairwise_iff_getElem.mp h i j hi hj hij

variable {p : α → Int} {l : List α} {lo hi k : Nat} {x : α}

theorem Bounds.right (h : Bounds p l lo hi) (hSplit : Split p l) (hx : l[k]? = some x) (hp : p x < 0) :
    Bounds p l (k + 1) hi := by
  refine ⟨?_, h.2⟩
  intro i y hy hi
  rcases Nat.lt_succ_iff_lt_or_eq.mp hi with hLt | rfl
  · exact (hSplit.get hLt hy hx).1 hp
  · rw [hx] at hy
    cases hy
    exact hp

theorem Bounds.left (h : Bounds p l lo hi) (hSplit : Split p l) (hx : l[k]? = some x) (hp : 0 < p x) :
    Bounds p l lo k := by
  refine ⟨h.1, ?_⟩
  intro i y hy hi
  rcases Nat.lt_or_eq_of_le hi with hLt | rfl
  · exact (hSplit.get hLt hx hy).2 hp
  · rw [hx] at hy
    cases hy
    exact hp

/-- Nothing is left between the bounds. -/
theorem Bounds.absent (h : Bounds p l lo hi) (hEmpty : hi ≤ lo) : ∀ x ∈ l, p x ≠ 0 := by
  intro x hx
  obtain ⟨i, hi⟩ := List.mem_iff_getElem?.mp hx
  rcases Nat.lt_or_ge i lo with hLt | hGe
  · have := h.1 i x hi hLt
    omega
  · have := h.2 i x hi (by omega)
    omega

/-! ## Lexicographic comparison -/

/-- The first difference counts, and without one the longer list is above. -/
def lex (f : α → Int) : List α → List α → Int
  | [], [] => 0
  | [], _ :: _ => -1
  | _ :: _, [] => 1
  | x :: xs, y :: ys => if f x = f y then lex f xs ys else f x - f y

variable {f : α → Int}

theorem lex_flip (xs ys : List α) : lex f ys xs = -lex f xs ys := by
  induction xs generalizing ys with
  | nil => cases ys <;> rfl
  | cons x xs ih =>
    cases ys with
    | nil => rfl
    | cons y ys =>
      simp only [lex, eq_comm (a := f y), ih]
      split <;> omega

theorem lex_eq_zero (hf : Function.Injective f) (xs ys : List α) : lex f xs ys = 0 ↔ xs = ys := by
  induction xs generalizing ys with
  | nil => cases ys <;> simp [lex]
  | cons x xs ih =>
    cases ys with
    | nil => simp [lex]
    | cons y ys =>
      simp only [lex]
      split
      · rename_i hSame
        rw [ih, hf hSame, List.cons.injEq]
        exact (and_iff_right rfl).symm
      · rename_i hDiffer
        constructor
        · intro hZero
          omega
        · intro hSame
          cases hSame
          exact absurd rfl hDiffer

theorem lex_trans {xs ys zs : List α} (hxy : lex f xs ys ≤ 0) (hyz : lex f ys zs ≤ 0) :
    lex f xs zs ≤ 0 := by
  induction xs generalizing ys zs with
  | nil =>
    cases zs with
    | nil => exact le_refl _
    | cons z zs => exact Int.negSucc_le_zero 0
  | cons x xs ih =>
    cases ys with
    | nil => exact absurd hxy (by simp [lex])
    | cons y ys =>
      cases zs with
      | nil => exact absurd hyz (by simp [lex])
      | cons z zs =>
        simp only [lex] at hxy hyz ⊢
        split at hxy <;> split at hyz <;> split
        all_goals first
          | exact ih hxy hyz
          | omega

/-- Where the common length agrees, the length decides. -/
theorem lex_of_take_eq {xs ys : List α}
    (h : xs.take (min xs.length ys.length) = ys.take (min xs.length ys.length)) :
    (lex f xs ys < 0 ↔ xs.length < ys.length) ∧ (0 < lex f xs ys ↔ ys.length < xs.length) := by
  induction xs generalizing ys with
  | nil => cases ys <;> simp [lex]
  | cons x xs ih =>
    cases ys with
    | nil => simp [lex]
    | cons y ys =>
      rw [List.length_cons, List.length_cons, Nat.succ_min_succ, List.take_succ_cons, List.take_succ_cons,
        List.cons.injEq] at h
      obtain ⟨rfl, hRest⟩ := h
      rw [lex, if_pos rfl, List.length_cons, List.length_cons, Nat.succ_lt_succ_iff, Nat.succ_lt_succ_iff]
      exact ih hRest

/-- A difference in the common length decides. -/
theorem lex_of_take_ne (hf : Function.Injective f) {xs ys : List α}
    (h : xs.take (min xs.length ys.length) ≠ ys.take (min xs.length ys.length)) :
    lex f xs ys = lex f (xs.take (min xs.length ys.length)) (ys.take (min xs.length ys.length)) := by
  induction xs generalizing ys with
  | nil => exact absurd (by simp) h
  | cons x xs ih =>
    cases ys with
    | nil => exact absurd (by simp) h
    | cons y ys =>
      rw [List.length_cons, List.length_cons, Nat.succ_min_succ, List.take_succ_cons, List.take_succ_cons] at h ⊢
      rw [lex, lex]
      split
      · rename_i hSame
        apply ih
        intro hRest
        rw [hf hSame, hRest] at h
        exact h rfl
      · rfl

theorem lex_orders (hf : Function.Injective f) (S : Set (List α)) : Orders (lex f) S where
  flip := by
    intro xs ys _ _
    have := lex_flip (f := f) xs ys
    omega
  trans := fun _ _ _ => lex_trans
  eq := fun _ _ => lex_eq_zero hf _ _

end Comparator
