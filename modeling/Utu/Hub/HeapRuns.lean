import Utu.Hub.Heap

/-!
# Heaps as sorted bags

A run of calls on a heap, from `Heap_create` on, with the numbers they return.
Under a total preorder every run is one of a bag: an insertion puts the element
in, a deletion takes out one that compares equal. The comparator for pointers is
an order on some addresses only, and on no others does a heap keep track of what
it holds.
-/

namespace Utu.Hub
open Comparator Outcome
set_option autoImplicit false

inductive HeapCall (α : Type) where
  | add (elem : α)
  | delete (elem : α)
  | find (elem : α)
  | clear
deriving DecidableEq, Repr

section Runs
variable {α : Type} (lib : HeapLib) (compare : α → α → Int)

def HeapCall.elems : HeapCall α → List α
  | .add elem | .delete elem | .find elem => [elem]
  | .clear => []

/-- The heap after a call and the number the call returns, which for `Heap_clear` means nothing. -/
def HeapCall.run : HeapCall α → Heap α → Run (Heap α × Nat)
  | .add elem, h => do
    let h ← h.add lib compare elem
    pure (h, h.last)
  | .delete elem, h => do
    let (h, deleted) ← h.delete lib (compare · elem)
    pure (h, deleted.toNat)
  | .find elem, h => do
    let i ← h.find (compare · elem)
    pure (h, i)
  | .clear, h => pure (h.clear, 0)

/-- The calls that returned, with their numbers, on a heap that has fewer than `2 ^ 30` elements at each. -/
inductive Heap.Runs : List (HeapCall α × Nat) → Heap α → Prop
  | create : Runs [] Heap.create
  | call {calls : List (HeapCall α × Nat)} {h h' : Heap α} {call : HeapCall α} {r : Nat}
      (hRun : Runs calls h) (hSmall : h.last < 2 ^ 30) (hCall : call.run lib compare h = .ok (h', r)) :
      Runs (calls ++ [(call, r)]) h'

/-! ## Bags -/

/-- A call on a bag. -/
inductive BagStep : Multiset α → HeapCall α × Nat → Multiset α → Prop
  | add (A : Multiset α) (elem : α) : BagStep A (.add elem, A.card + 1) (elem ::ₘ A)
  | deleted {A : Multiset α} {elem x : α} (hEqual : compare x elem = 0) :
      BagStep (x ::ₘ A) (.delete elem, 1) A
  | absent {A : Multiset α} {elem : α} (hNone : ∀ x ∈ A, compare x elem ≠ 0) :
      BagStep A (.delete elem, 0) A
  | found {A : Multiset α} {elem x : α} {i : Nat} (hi : i < A.card) (hx : x ∈ A)
      (hEqual : compare x elem = 0) : BagStep A (.find elem, i) A
  | missing {A : Multiset α} {elem : α} (hNone : ∀ x ∈ A, compare x elem ≠ 0) :
      BagStep A (.find elem, A.card) A
  | clear (A : Multiset α) : BagStep A (.clear, 0) 0

inductive BagRuns : List (HeapCall α × Nat) → Multiset α → Prop
  | empty : BagRuns [] 0
  | call {calls : List (HeapCall α × Nat)} {A A' : Multiset α} {c : HeapCall α × Nat}
      (hRun : BagRuns calls A) (hStep : BagStep compare A c A') : BagRuns (calls ++ [c]) A'

end Runs

section Refinement
variable {α : Type} {lib : HeapLib} {compare : α → α → Int} {S : Set α} {h h' : Heap α}

theorem HeapCall.run_laid (hLib : lib.Sorts) (hLaid : h.Laid) (hSmall : h.last < 2 ^ 30) (call : HeapCall α) :
    Barring {noMemory} (call.run lib compare h) fun r => r.1.Laid := by
  cases call with
  | add elem =>
    apply (Heap.add_put hLib hLaid elem).bind
    intro k hPut
    exact .pure hPut.laid
  | delete elem =>
    apply (Heap.delete_removed hLaid hSmall).bind
    intro r hRemoved
    exact .pure hRemoved.1
  | find elem =>
    obtain ⟨i, hFind, -⟩ := Heap.find_found hSmall (compare · elem)
    rw [HeapCall.run, bind_of_ok hFind]
    exact .pure hLaid
  | clear => exact .pure (Heap.clear_laid hLaid)

/-- The elements of the heap are from `S` and in order. -/
structure Heap.Ordered (compare : α → α → Int) (S : Set α) (h : Heap α) : Prop where
  laid : h.Laid
  sorted : Sorted compare h.members
  within : ∀ x ∈ h.members, x ∈ S

namespace Heap.Ordered

theorem create : (Heap.create : Heap α).Ordered compare S :=
  ⟨create_laid, List.Pairwise.nil, by simp [Heap.create]⟩

/-- A search tells whether an element compares equal. -/
theorem find (hOrder : Preorders compare S) (hh : h.Ordered compare S) (hSmall : h.last < 2 ^ 30)
    {elem : α} (hElem : elem ∈ S) :
    ∃ i, h.find (compare · elem) = .ok i ∧
      ((∃ x, h.members[i]? = some x ∧ compare x elem = 0) ∨
        (i = h.last ∧ ∀ x ∈ h.members, compare x elem ≠ 0)) := by
  obtain ⟨i, hFind, hFound⟩ := find_found hSmall (compare · elem)
  refine ⟨i, hFind, ?_⟩
  rcases hFound with hEqual | ⟨hLast, hAbsent⟩
  · exact .inl hEqual
  · exact .inr ⟨hLast, hAbsent (hh.sorted.split hOrder hh.within hElem)⟩

/-- Every call is one on the bag of the elements. -/
theorem call (hLib : lib.Sorts) (hOrder : Preorders compare S) (hh : h.Ordered compare S)
    (hSmall : h.last < 2 ^ 30) (call : HeapCall α) (hElems : ∀ x ∈ call.elems, x ∈ S) :
    Barring {noMemory} (call.run lib compare h) fun r =>
      r.1.Ordered compare S ∧ BagStep compare h.members (call, r.2) r.1.members := by
  cases call with
  | add elem =>
    have hAll : ∀ x ∈ elem :: h.members, x ∈ S :=
      List.forall_mem_cons.mpr ⟨hElems elem List.mem_cons_self, hh.within⟩
    apply (add_put hLib hh.laid elem).bind
    intro k hPut
    refine .pure ⟨⟨hPut.laid, hPut.sorted hSmall (hOrder.mono hAll), ?_⟩, ?_⟩
    · intro x hx
      exact hAll x (hPut.perm.mem_iff.mp hx)
    · have hLast : k.last = Multiset.card (h.members : Multiset α) + 1 := hPut.perm.length_eq
      rw [hLast, Multiset.coe_eq_coe.mpr hPut.perm]
      exact .add _ elem
  | delete elem =>
    apply (delete_removed hh.laid hSmall).bind
    rintro ⟨k, deleted⟩ ⟨hLaid, -, hRemoved⟩
    rcases hRemoved with ⟨rfl, i, x, hx, hEqual, hErase⟩ | ⟨rfl, rfl, hAbsent⟩
    · obtain ⟨hLt, hGet⟩ := List.getElem?_eq_some_iff.mp hx
      have hSub : k.members.Sublist h.members := hErase ▸ List.eraseIdx_sublist _ _
      have hBag : (h.members : Multiset α) = x ::ₘ k.members := by
        rw [hErase, Multiset.cons_coe, Multiset.coe_eq_coe, ← hGet]
        exact (List.getElem_cons_eraseIdx_perm hLt).symm
      refine .pure ⟨⟨hLaid, hh.sorted.sublist hSub, ?_⟩, ?_⟩
      · intro y hy
        exact hh.within y (hSub.subset hy)
      · rw [hBag]
        exact .deleted hEqual
    · refine .pure ⟨hh, .absent ?_⟩
      exact hAbsent (hh.sorted.split hOrder hh.within (hElems elem List.mem_cons_self))
  | find elem =>
    obtain ⟨i, hFind, hFound⟩ := hh.find hOrder hSmall (hElems elem List.mem_cons_self)
    rw [HeapCall.run, bind_of_ok hFind]
    refine .pure ⟨hh, ?_⟩
    rcases hFound with ⟨x, hx, hEqual⟩ | ⟨rfl, hNone⟩
    · obtain ⟨hLt, -⟩ := List.getElem?_eq_some_iff.mp hx
      exact .found hLt (List.mem_of_getElem? hx) hEqual
    · exact .missing hNone
  | clear => exact .pure ⟨⟨clear_laid hh.laid, List.Pairwise.nil, by simp [Heap.clear]⟩, .clear _⟩

end Heap.Ordered

theorem Heap.Runs.ordered (hLib : lib.Sorts) (hOrder : Preorders compare S)
    {calls : List (HeapCall α × Nat)} (hRun : Heap.Runs lib compare calls h)
    (hElems : ∀ c ∈ calls, ∀ x ∈ c.1.elems, x ∈ S) :
    h.Ordered compare S ∧ BagRuns compare calls h.members := by
  induction hRun with
  | create => exact ⟨Heap.Ordered.create, .empty⟩
  | @call calls h h' call r hRun hSmall hCall ih =>
    obtain ⟨hh, hBag⟩ := ih fun c hc => hElems c (List.mem_append_left _ hc)
    have hNew : ∀ x ∈ call.elems, x ∈ S :=
      hElems (call, r) (List.mem_append_right _ List.mem_cons_self)
    obtain ⟨hh', hStep⟩ := (hh.call hLib hOrder hSmall call hNew).of_ok hCall
    exact ⟨hh', .call hBag hStep⟩

/-- A heap with a total preorder for its comparator is a sorted bag. -/
theorem Heap.refines_bag (hLib : lib.Sorts) (hOrder : Preorders compare Set.univ)
    {calls : List (HeapCall α × Nat)} (hRun : Heap.Runs lib compare calls h) :
    BagRuns compare calls h.members ∧ Sorted compare h.members ∧ h.last ≤ h.size ∧
      (h.last < 2 ^ 30 →
        (∀ elem, ∃ i, h.find (compare · elem) = .ok i ∧
          ((∃ x, h.members[i]? = some x ∧ compare x elem = 0) ∨
            (i = h.last ∧ ∀ x ∈ h.members, compare x elem ≠ 0))) ∧
        ∀ call : HeapCall α, Barring {noMemory} (call.run lib compare h) fun r => r.1.last ≤ r.1.size) := by
  obtain ⟨hh, hBag⟩ := hRun.ordered hLib hOrder fun _ _ _ _ => Set.mem_univ _
  refine ⟨hBag, hh.sorted, hh.laid.fits, ?_⟩
  intro hSmall
  constructor
  · intro elem
    exact hh.find hOrder hSmall (Set.mem_univ elem)
  · intro call
    exact (call.run_laid hLib hh.laid hSmall).mono fun _ hLaid => hLaid.fits

/-- By tens: 31 goes when 35 is asked for. -/
theorem Heap.refines_bag_tens :
    let tens : Nat → Nat → Int := fun x y => (x / 10 : Nat) - (y / 10 : Nat)
    BagRuns tens [(.add 31, 1), (.add 12, 2), (.delete 35, 1), (.find 19, 0)] {12} ∧
      Sorted tens [12] := by
  intro tens
  have hOrder : Preorders tens Set.univ := by
    constructor
    · intro x y _ _
      show ((x / 10 : Nat) : Int) - (y / 10 : Nat) < 0 ↔ 0 < ((y / 10 : Nat) : Int) - (x / 10 : Nat)
      omega
    · intro x y z _ _ _ hxy hyz
      have hX : ((x / 10 : Nat) : Int) - (y / 10 : Nat) ≤ 0 := hxy
      have hY : ((y / 10 : Nat) : Int) - (z / 10 : Nat) ≤ 0 := hyz
      show ((x / 10 : Nat) : Int) - (z / 10 : Nat) ≤ 0
      omega
  have hFirst : Heap.Runs plainLib tens [(.add 31, 1)] ⟨[31], 8⟩ :=
    .call .create (by decide) (by decide +kernel)
  have hSecond : Heap.Runs plainLib tens [(.add 31, 1), (.add 12, 2)] ⟨[12, 31], 8⟩ :=
    .call hFirst (by decide) (by decide +kernel)
  have hThird : Heap.Runs plainLib tens [(.add 31, 1), (.add 12, 2), (.delete 35, 1)] ⟨[12], 8⟩ :=
    .call hSecond (by decide) (by decide +kernel)
  have hRun : Heap.Runs plainLib tens [(.add 31, 1), (.add 12, 2), (.delete 35, 1), (.find 19, 0)] ⟨[12], 8⟩ :=
    .call hThird (by decide) (by decide +kernel)
  obtain ⟨hBag, hSorted, -⟩ := Heap.refines_bag plainLib_sound.sorts hOrder hRun
  exact ⟨hBag, hSorted⟩

end Refinement

/-! ## Pointers -/

section Pointers

/-- What insertions and deletions should leave. -/
def heldAfter (A : Multiset Nat) : HeapCall Nat × Nat → Multiset Nat
  | (.add elem, _) => elem ::ₘ A
  | (.delete elem, _) => A.erase elem
  | (.find _, _) => A
  | (.clear, _) => 0

def heldBy (calls : List (HeapCall Nat × Nat)) : Multiset Nat := calls.foldl heldAfter 0

/-- The heap holds `A`, and searches for the addresses in `S` say so. -/
structure FindsHeld (lib : HeapLib) (S : Set Nat) (A : Multiset Nat) (h : Heap Nat) : Prop where
  holds : (h.members : Multiset Nat) = A
  finds : ∀ elem ∈ S, ∃ i, h.find (voidPtrCompare · elem) = .ok i ∧
    (h.valid i = true ↔ elem ∈ h.members) ∧ (h.valid i = true → h.members[i]? = some elem)
  returns : ∀ call : HeapCall Nat, Barring {noMemory} (call.run lib voidPtrCompare h) fun r => r.1.last ≤ r.1.size

/-- Only insertions and deletions of addresses in `S`. -/
def OnlyPointers (S : Set Nat) (calls : List (HeapCall Nat × Nat)) : Prop :=
  ∀ c ∈ calls, ∃ elem ∈ S, c.1 = .add elem ∨ c.1 = .delete elem

variable {lib : HeapLib} {S : Set Nat} {h : Heap Nat} {A A' : Multiset Nat}

theorem OnlyPointers.elems {calls : List (HeapCall Nat × Nat)} (hCalls : OnlyPointers S calls) :
    ∀ c ∈ calls, ∀ x ∈ c.1.elems, x ∈ S := by
  intro c hc x hx
  obtain ⟨elem, hElem, hCall | hCall⟩ := hCalls c hc
  all_goals
    rw [hCall] at hx
    exact List.mem_singleton.mp hx ▸ hElem

/-- In an order only an element itself compares equal to it. -/
theorem BagStep.heldBy {compare : Nat → Nat → Int} (hOrder : Orders compare S) {c : HeapCall Nat × Nat}
    (hA : ∀ x ∈ A, x ∈ S) (hElems : ∀ x ∈ c.1.elems, x ∈ S) (hStep : BagStep compare A c A') :
    A' = heldAfter A c := by
  cases hStep with
  | add elem => rfl
  | @deleted _ elem x hEqual =>
    have hSame : x = elem :=
      (hOrder.eq (hA x (Multiset.mem_cons_self x A')) (hElems elem List.mem_cons_self)).mp hEqual
    rw [heldAfter, ← hSame, Multiset.erase_cons_head]
  | @absent _ elem hNone =>
    have hElem : elem ∈ S := hElems elem List.mem_cons_self
    have hNot : elem ∉ A := fun hMem => hNone elem hMem ((hOrder.eq hElem hElem).mpr rfl)
    rw [heldAfter, Multiset.erase_of_notMem hNot]
  | found => rfl
  | missing => rfl
  | clear => rfl

theorem Heap.Runs.holds_held (hLib : lib.Sorts) (hOrder : Orders voidPtrCompare S)
    {calls : List (HeapCall Nat × Nat)} (hRun : Heap.Runs lib voidPtrCompare calls h)
    (hElems : ∀ c ∈ calls, ∀ x ∈ c.1.elems, x ∈ S) : (h.members : Multiset Nat) = heldBy calls := by
  induction hRun with
  | create => rfl
  | @call calls h h' call r hRun hSmall hCall ih =>
    have hOld : ∀ c ∈ calls, ∀ x ∈ c.1.elems, x ∈ S := fun c hc => hElems c (List.mem_append_left _ hc)
    have hNew : ∀ x ∈ call.elems, x ∈ S :=
      hElems (call, r) (List.mem_append_right _ List.mem_cons_self)
    obtain ⟨hh, -⟩ := hRun.ordered hLib hOrder.toPreorders hOld
    obtain ⟨-, hStep⟩ := (hh.call hLib hOrder.toPreorders hSmall call hNew).of_ok hCall
    rw [heldBy, List.foldl_append]
    change _ = heldAfter (heldBy calls) (call, r)
    rw [← ih hOld]
    exact hStep.heldBy hOrder hh.within hNew

theorem Heap.Runs.findsHeld (hLib : lib.Sorts) (hOrder : Orders voidPtrCompare S)
    {calls : List (HeapCall Nat × Nat)} (hRun : Heap.Runs lib voidPtrCompare calls h)
    (hCalls : OnlyPointers S calls) (hSmall : h.last < 2 ^ 30) : FindsHeld lib S (heldBy calls) h := by
  obtain ⟨hh, -⟩ := hRun.ordered hLib hOrder.toPreorders hCalls.elems
  refine ⟨hRun.holds_held hLib hOrder hCalls.elems, ?_, ?_⟩
  · intro elem hElem
    obtain ⟨i, hFind, hFound⟩ := hh.find hOrder.toPreorders hSmall hElem
    refine ⟨i, hFind, ?_⟩
    rcases hFound with ⟨x, hx, hEqual⟩ | ⟨rfl, hNone⟩
    · have hMem := List.mem_of_getElem? hx
      obtain rfl := (hOrder.eq (hh.within x hMem) hElem).mp hEqual
      obtain ⟨hLt, -⟩ := List.getElem?_eq_some_iff.mp hx
      exact ⟨iff_of_true (decide_eq_true hLt) hMem, fun _ => hx⟩
    · have hNot : elem ∉ h.members := fun hMem => hNone elem hMem ((hOrder.eq hElem hElem).mpr rfl)
      have hInvalid : ¬h.valid h.last = true := by simp [Heap.valid]
      exact ⟨iff_of_false hInvalid hNot, fun hValid => absurd hValid hInvalid⟩
  · intro call
    exact (call.run_laid hLib hh.laid hSmall).mono fun _ hLaid => hLaid.fits

/-! A sort that reverses what it cannot sort shows the addresses that are in no order. -/

open Classical in
noncomputable def contraryLib : HeapLib :=
  ⟨fun cmp l => if Preorders cmp {x | x ∈ l} then Comparator.sort cmp l else l.reverse, fun _ => true⟩

theorem contraryLib_sorts : contraryLib.Sorts := by
  constructor
  · intro α cmp l
    simp only [contraryLib]
    split
    · exact sort_perm l
    · exact List.reverse_perm l
  · intro α cmp l hOrder
    simp only [contraryLib, if_pos hOrder]
    exact sort_sorted hOrder

theorem Heap.Runs.add (hLib : lib.Sorts) {calls : List (HeapCall Nat × Nat)} {members : List Nat}
    (hRun : Heap.Runs lib voidPtrCompare calls ⟨members, heapSize⟩) (hRoom : members.length < heapSize) (x : Nat) :
    Heap.Runs lib voidPtrCompare (calls ++ [(.add x, members.length + 1)])
      ⟨lib.sort voidPtrCompare (members ++ [x]), heapSize⟩ := by
  have hLt : members.length < 8 := hRoom
  apply hRun.call (show members.length < 2 ^ 30 by omega)
  have hFull : (⟨members, heapSize⟩ : Heap Nat).isFull = false := by
    simp only [Heap.isFull, Heap.last, beq_eq_false_iff_ne]
    omega
  have hGrow : Heap.grow lib (⟨members, heapSize⟩ : Heap Nat) = .ok ⟨members, heapSize⟩ := by
    rw [Heap.grow, hFull]
    rfl
  have hSort : Heap.sort lib voidPtrCompare ⟨members ++ [x], heapSize⟩ =
      ⟨lib.sort voidPtrCompare (members ++ [x]), heapSize⟩ := by
    have hLen : (toInt (members ++ [x]).length).toNat = (members ++ [x]).length := by
      rw [toInt_small (by simp only [List.length_append, List.length_singleton]; omega)]
      rfl
    simp only [Heap.sort, Heap.last, hLen, List.take_length, List.drop_length, List.append_nil]
  have hLen : (lib.sort voidPtrCompare (members ++ [x])).length = members.length + 1 := by
    rw [(hLib.perm _ _).length_eq, List.length_append, List.length_singleton]
  have hAdd : Heap.add lib voidPtrCompare ⟨members, heapSize⟩ x =
      .ok ⟨lib.sort voidPtrCompare (members ++ [x]), heapSize⟩ := by
    rw [Heap.add, bind_of_ok hGrow, if_pos (show (⟨members, heapSize⟩ : Heap Nat).last < heapSize from hRoom), hSort]
    rfl
  rw [HeapCall.run, bind_of_ok hAdd, ← hLen]
  rfl

theorem find_three (p : Nat → Int) (a b c size : Nat) :
    Heap.find p ⟨[a, b, c], size⟩ =
      .ok (if p b = 0 then 1 else if p b < 0 then (if p c = 0 then 2 else 3) else if p a = 0 then 0 else 3) := by
  have hLast : toInt (((⟨[a, b, c], size⟩ : Heap Nat).last + sizeMod - 1) % sizeMod) = 2 :=
    show toInt ((3 + sizeMod - 1) % sizeMod) = 2 by decide
  simp only [Heap.find, hLast]
  simp [Heap.findLoop, Heap.last]
  split_ifs <;> rfl

theorem find_one (p : Nat → Int) (a size : Nat) :
    Heap.find p ⟨[a], size⟩ = .ok (if p a = 0 then 0 else 1) := by
  have hLast : toInt (((⟨[a], size⟩ : Heap Nat).last + sizeMod - 1) % sizeMod) = 0 :=
    show toInt ((1 + sizeMod - 1) % sizeMod) = 0 by decide
  simp only [Heap.find, hLast]
  simp [Heap.findLoop, Heap.last]
  split_ifs <;> rfl

theorem voidPtrCompare_self (x : Nat) : voidPtrCompare x x = 0 := by
  rw [voidPtrCompare, Int.sub_self]
  rfl

/-- Only half of the range cannot be turned round. -/
theorem voidPtrCompare_flip (x y : Nat) :
    voidPtrCompare y x = -voidPtrCompare x y ∨ (voidPtrCompare x y = -2 ^ 31 ∧ voidPtrCompare y x = -2 ^ 31) := by
  simp only [voidPtrCompare, Int.bmod]
  omega

theorem run_one (a : Nat) :
    Heap.Runs contraryLib voidPtrCompare [(.add a, 1)] ⟨[a], heapSize⟩ := by
  have hOne := Heap.Runs.add contraryLib_sorts .create (show 0 < heapSize by decide) a
  have hSort : contraryLib.sort voidPtrCompare ([] ++ [a]) = [a] :=
    List.perm_singleton.mp (contraryLib_sorts.perm voidPtrCompare [a])
  rwa [hSort] at hOne

/-- Three insertions whose elements are in no order are reversed. -/
theorem run_three {a b c : Nat} (hPair : Preorders voidPtrCompare {x | x ∈ [a, b]}) (hab : voidPtrCompare a b ≤ 0)
    (hNot : ¬Preorders voidPtrCompare {x | x ∈ [a, b, c]}) :
    Heap.Runs contraryLib voidPtrCompare [(.add a, 1), (.add b, 2), (.add c, 3)] ⟨[c, b, a], heapSize⟩ := by
  have hTwo := Heap.Runs.add contraryLib_sorts (run_one a) (show 1 < heapSize by decide) b
  have hSort : contraryLib.sort voidPtrCompare ([a] ++ [b]) = [a, b] := by
    simp only [contraryLib, List.singleton_append, if_pos hPair]
    simp [Comparator.sort, hab]
  rw [hSort] at hTwo
  have hThree := Heap.Runs.add contraryLib_sorts hTwo (show 2 < heapSize by decide) c
  have hReverse : contraryLib.sort voidPtrCompare ([a, b] ++ [c]) = [c, b, a] := by
    simp only [contraryLib, List.cons_append, List.nil_append, if_neg hNot]
    rfl
  rwa [hReverse] at hThree

section Exact
variable (hAll : ∀ lib : HeapLib, lib.Sorts → ∀ calls h, Heap.Runs lib voidPtrCompare calls h →
  OnlyPointers S calls → h.last < 2 ^ 30 → FindsHeld lib S (heldBy calls) h)
include hAll

theorem eq_of_found {x y : Nat} (hx : x ∈ S) (hy : y ∈ S) (hEqual : voidPtrCompare x y = 0) : x = y := by
  have hHeld := hAll contraryLib contraryLib_sorts _ _ (run_one x) (by simp [OnlyPointers, hx])
    (show 1 < 2 ^ 30 by decide)
  obtain ⟨i, hFind, -, hGet⟩ := hHeld.finds y hy
  rw [find_one, if_pos hEqual] at hFind
  cases hFind
  exact Option.some.inj (hGet rfl)

theorem not_reversed {a b c : Nat} (ha : a ∈ S) (hb : b ∈ S) (hc : c ∈ S)
    (hPair : Preorders voidPtrCompare {x | x ∈ [a, b]}) (hab : voidPtrCompare a b ≤ 0)
    (hbc : voidPtrCompare b c < 0) (hac : voidPtrCompare a c ≠ 0) :
    Preorders voidPtrCompare {x | x ∈ [a, b, c]} := by
  by_contra hNot
  have hHeld := hAll contraryLib contraryLib_sorts _ _ (run_three hPair hab hNot)
    (by simp [OnlyPointers, ha, hb, hc]) (show 3 < 2 ^ 30 by decide)
  obtain ⟨i, hFind, hValid, -⟩ := hHeld.finds c hc
  rw [find_three, if_neg (by omega), if_pos hbc, if_neg hac] at hFind
  cases hFind
  exact absurd (hValid.mpr List.mem_cons_self) (by simp [Heap.valid, Heap.last])

theorem flip_of_found {x y : Nat} (hx : x ∈ S) (hy : y ∈ S) : voidPtrCompare y x = -voidPtrCompare x y := by
  rcases voidPtrCompare_flip x y with hFlip | ⟨hxy, hyx⟩
  · exact hFlip
  · have hOnly : Preorders voidPtrCompare {z | z ∈ [x, x]} := by
      constructor
      · intro u v hu hv
        simp only [Set.mem_ofPred_eq, List.mem_cons, List.not_mem_nil, or_false, or_self] at hu hv
        rw [hu, hv, voidPtrCompare_self]
      · intro u v w hu _ hw _ _
        simp only [Set.mem_ofPred_eq, List.mem_cons, List.not_mem_nil, or_false, or_self] at hu hw
        rw [hu, hw, voidPtrCompare_self]
    have hOrder := not_reversed hAll hx hx hy hOnly (voidPtrCompare_self x).le (by omega) (by omega)
    have hTurned := hOrder.flip (show x ∈ [x, x, y] by simp) (show y ∈ [x, x, y] by simp)
    omega

theorem pair_preorders {x y : Nat} (hx : x ∈ S) (hy : y ∈ S) : Preorders voidPtrCompare {z | z ∈ [x, y]} := by
  have hPair : ∀ z ∈ [x, y], z ∈ S := by simp [hx, hy]
  constructor
  · intro u v hu hv
    have hFlip := flip_of_found hAll (hPair u hu) (hPair v hv)
    omega
  · intro u v w hu hv hw huv hvw
    have hFlip := flip_of_found hAll (hPair v hv) (hPair w hw)
    have hTwo : u = v ∨ v = w ∨ u = w := by
      simp only [Set.mem_ofPred_eq, List.mem_cons, List.not_mem_nil, or_false] at hu hv hw
      omega
    rcases hTwo with rfl | rfl | rfl
    · exact hvw
    · exact huv
    · exact (voidPtrCompare_self u).le

theorem orders_of_found : Orders voidPtrCompare S := by
  refine ⟨⟨?_, ?_⟩, ?_⟩
  · intro x y hx hy
    have hFlip := flip_of_found hAll hx hy
    omega
  · intro x y z hx hy hz hxy hyz
    by_contra hNot
    have hzx := flip_of_found hAll hz hx
    have hyx := flip_of_found hAll hy hx
    have hxy' : voidPtrCompare x y ≠ 0 := by
      intro hEqual
      rw [eq_of_found hAll hx hy hEqual] at hNot
      exact hNot hyz
    have hOrder := not_reversed hAll hy hz hx (pair_preorders hAll hy hz) hyz (by omega) (by omega)
    exact hNot (hOrder.trans (by simp) (by simp) (by simp) hxy hyz)
  · intro x y hx hy
    constructor
    · exact eq_of_found hAll hx hy
    · rintro rfl
      exact voidPtrCompare_self x

end Exact

/-- A heap of pointers finds what it holds on the sets of addresses that the cut difference orders, and
on no others. -/
theorem Heap.finds_held_iff (S : Set Nat) :
    (∀ lib : HeapLib, lib.Sorts → ∀ calls h, Heap.Runs lib voidPtrCompare calls h →
      OnlyPointers S calls → h.last < 2 ^ 30 → FindsHeld lib S (heldBy calls) h) ↔
    Orders voidPtrCompare S := by
  constructor
  · exact orders_of_found
  · intro hOrder lib hLib calls h hRun hCalls hSmall
    exact hRun.findsHeld hLib hOrder hCalls hSmall

/-- Two addresses 4 GiB apart: the one in the heap is taken for the other. -/
theorem Heap.finds_another :
    let x := 4096
    let y := 4096 + 2 ^ 32
    Heap.Runs plainLib voidPtrCompare [(.add x, 1)] ⟨[x], 8⟩ ∧
      Heap.find (voidPtrCompare · y) ⟨[x], 8⟩ = .ok 0 ∧ Heap.valid ⟨[x], 8⟩ 0 = true ∧ y ∉ [x] ∧
      Heap.Runs plainLib voidPtrCompare [(.add x, 1), (.delete y, 1)] ⟨[], 8⟩ := by
  have hAdd : Heap.Runs plainLib voidPtrCompare [(.add 4096, 1)] ⟨[4096], 8⟩ :=
    .call .create (by decide) (by decide +kernel)
  have hDelete : Heap.Runs plainLib voidPtrCompare [(.add 4096, 1), (.delete (4096 + 2 ^ 32), 1)] ⟨[], 8⟩ :=
    .call hAdd (by decide) (by decide +kernel)
  refine ⟨hAdd, ?_, rfl, ?_, hDelete⟩
  · decide +kernel
  · decide

end Pointers

end Utu.Hub
