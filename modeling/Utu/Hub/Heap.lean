import Utu.Bstring
import Utu.Lib.Outcome

/-!
# Heaps

A `Heap` is an array of pointers that is sorted again after every insertion and
searched by halving. The cells behind `last` are never read, so only the others
are kept, with the number of cells allocated. Sorting and `realloc` come from
outside.
-/

namespace Utu.Hub
open Comparator Outcome
set_option autoImplicit false

/-- `SGLIB_ARRAY_HEAP_SORT`, and whether `realloc` has room for an array of so many pointers. -/
structure HeapLib where
  sort : {α : Type} → (α → α → Int) → List α → List α
  realloc : Nat → Bool

/-- The sort sorts, and no array of `2 ^ 30` pointers can be had. -/
structure HeapLib.Sound (lib : HeapLib) : Prop where
  perm : ∀ {α : Type} (cmp : α → α → Int) (l : List α), (lib.sort cmp l).Perm l
  sorted : ∀ {α : Type} {cmp : α → α → Int} {l : List α}, Preorders cmp {x | x ∈ l} →
    Sorted cmp (lib.sort cmp l)
  bounded : ∀ n, lib.realloc n = true → n < 2 ^ 30

/-- The sort sorts. -/
structure HeapLib.Sorts (lib : HeapLib) : Prop where
  perm : ∀ {α : Type} (cmp : α → α → Int) (l : List α), (lib.sort cmp l).Perm l
  sorted : ∀ {α : Type} {cmp : α → α → Int} {l : List α}, Preorders cmp {x | x ∈ l} →
    Sorted cmp (lib.sort cmp l)

theorem HeapLib.Sound.sorts {lib : HeapLib} (hLib : lib.Sound) : lib.Sorts := ⟨hLib.perm, hLib.sorted⟩

/-- A library of this kind. -/
def plainLib : HeapLib := ⟨Comparator.sort, fun n => n < 2 ^ 30⟩

theorem plainLib_sound : plainLib.Sound :=
  ⟨fun _ l => sort_perm l, sort_sorted, fun _ h => of_decide_eq_true h⟩

structure Heap (α : Type) where
  members : List α
  size : Nat
deriving DecidableEq, Repr

def heapSize : Nat := 8

/-- What a call stops at when there is no memory. -/
def noMemory : Fault := .assertFailed "heap->members != NULL && \"Failed to realloc new Heap.\""

/-- `Heap_void_ptr_compare`: the difference of two addresses, cut to an `int` -/
def voidPtrCompare (x y : Nat) : Int := Int.bmod (x - y) (2 ^ 32)

/-- The comparator is exact on addresses that lie within 2 GiB. -/
theorem voidPtrCompare_orders {S : Set Nat} (base : Nat) (hS : ∀ x ∈ S, base ≤ x ∧ x < base + 2 ^ 31) :
    Orders voidPtrCompare S := by
  have hExact : ∀ x ∈ S, ∀ y ∈ S, voidPtrCompare x y = (x : Int) - y := by
    intro x hx y hy
    have hX := hS x hx
    have hY := hS y hy
    exact Int.bmod_eq_of_le (by omega) (by omega)
  refine ⟨⟨?_, ?_⟩, ?_⟩
  · intro x y hx hy
    rw [hExact x hx y hy, hExact y hy x hx]
    omega
  · intro x y z hx hy hz
    rw [hExact x hx y hy, hExact y hy z hz, hExact x hx z hz]
    omega
  · intro x y hx hy
    rw [hExact x hx y hy]
    omega

namespace Heap

section Operations
variable {α : Type} (lib : HeapLib) (compare : α → α → Int)

/-- `Heap_create` -/
def create : Heap α := ⟨[], heapSize⟩

def last (h : Heap α) : Nat := h.members.length

/-- `Heap_is_full` -/
def isFull (h : Heap α) : Bool := h.last == h.size

/-- `Heap_sort`; the number of elements is an `int`. -/
def sort (h : Heap α) : Heap α :=
  let n := (toInt h.last).toNat
  { h with members := lib.sort compare (h.members.take n) ++ h.members.drop n }

/-- `Heap_resize`; elements that do not fit any more would be read from outside the array. -/
def resize (h : Heap α) (size : Nat) : Run (Heap α) :=
  if size = 0 then throw (.assertFailed "size > 0 && \"Cannot resize to 0.\"")
  else if lib.realloc size = false then throw noMemory
  else if size < h.last then throw .heapOverflow
  else pure { h with size := size }

/-- The first part of `Heap_add`: a full heap gets twice as many cells. -/
def grow (h : Heap α) : Run (Heap α) := if h.isFull then h.resize lib (h.size * 2) else pure h

/-- `Heap_add`; it returns the new `last`. -/
def add (h : Heap α) (elem : α) : Run (Heap α) := do
  let h ← h.grow lib
  if h.last < h.size then pure (sort lib compare { h with members := h.members ++ [elem] })
  else throw .heapOverflow

/-- The loop of `Heap_find`, with `kk` an `int`; `probe` compares a member with the element. -/
def findLoop (probe : α → Int) (members : List α) : Nat → Int → Int → Run (Option Nat)
  | 0, _, _ => throw .outOfFuel
  | fuel + 1, ii, jj =>
    if ii ≤ jj then
      let kk := (Int.bmod (jj + ii) (2 ^ 32)).tdiv 2
      if kk < 0 then throw .badPointer
      else
        match members[kk.toNat]? with
        | none => throw .badPointer
        | some x =>
          if probe x = 0 then pure (some kk.toNat)
          else if probe x < 0 then findLoop probe members fuel (kk + 1) jj
          else findLoop probe members fuel ii (kk - 1)
    else pure none

/-- `Heap_find`: the place of an element that compares equal, or `last` -/
def find (probe : α → Int) (h : Heap α) : Run Nat := do
  let jj := toInt ((h.last + sizeMod - 1) % sizeMod)
  let found ← findLoop probe h.members (h.last + 1) 0 jj
  pure (found.getD h.last)

/-- `Heap_valid` -/
def valid (h : Heap α) (i : Nat) : Bool := i < h.last

/-- `Heap_delete`: the heap gets smaller when it is less than half full. -/
def delete (probe : α → Int) (h : Heap α) : Run (Heap α × Bool) := do
  let i ← h.find probe
  if h.valid i then
    let h := { h with members := h.members.eraseIdx i }
    if heapSize < h.last ∧ h.last < h.size / 2 then do
      let h ← h.resize lib (h.size / 2)
      pure (h, true)
    else pure (h, true)
  else pure (h, false)

/-- `Heap_clear` -/
def clear (h : Heap α) : Heap α := { h with members := [] }

end Operations

/-! ## What the operations do -/

section Laws
variable {α : Type} {lib : HeapLib} {compare : α → α → Int} {probe : α → Int} {h : Heap α}

/-- The elements lie in the array, which is not empty. -/
structure Laid (h : Heap α) : Prop where
  fits : h.last ≤ h.size
  pos : 0 < h.size

/-- The elements lie in the array, which is not empty and has fewer than `2 ^ 30` cells. -/
structure Valid (h : Heap α) : Prop where
  fits : h.last ≤ h.size
  pos : 0 < h.size
  small : h.size < 2 ^ 30

/-- The array is the old one, or `realloc` had room for it. -/
def Sized (lib : HeapLib) (h h' : Heap α) : Prop := h'.size = h.size ∨ lib.realloc h'.size = true

theorem create_laid : (create : Heap α).Laid := ⟨Nat.zero_le _, show 0 < heapSize by decide⟩

theorem clear_laid (hLaid : h.Laid) : h.clear.Laid := ⟨Nat.zero_le _, hLaid.pos⟩

theorem create_valid : (create : Heap α).Valid :=
  ⟨Nat.zero_le _, show 0 < heapSize by decide, show heapSize < 2 ^ 30 by decide⟩

theorem clear_valid (hValid : h.Valid) : h.clear.Valid := ⟨Nat.zero_le _, hValid.pos, hValid.small⟩

theorem Valid.laid (hValid : h.Valid) : h.Laid := ⟨hValid.fits, hValid.pos⟩

theorem Valid.last_lt (hValid : h.Valid) : h.last < 2 ^ 30 := Nat.lt_of_le_of_lt hValid.fits hValid.small

theorem Valid.of_sized (hLib : lib.Sound) (hValid : h.Valid) {h' : Heap α} (hLaid : h'.Laid)
    (hSized : Sized lib h h') : h'.Valid := by
  refine ⟨hLaid.fits, hLaid.pos, ?_⟩
  rcases hSized with hSame | hRoom
  · rw [hSame]
    exact hValid.small
  · exact hLib.bounded _ hRoom

theorem sort_perm (hLib : lib.Sorts) (h : Heap α) : (h.sort lib compare).members.Perm h.members := by
  have hTake := (hLib.perm compare (h.members.take (toInt h.last).toNat)).append_right
    (h.members.drop (toInt h.last).toNat)
  rwa [List.take_append_drop] at hTake

theorem sort_sorted (hLib : lib.Sorts) (hSmall : h.last < 2 ^ 31)
    (hOrder : Preorders compare {x | x ∈ h.members}) : Sorted compare (h.sort lib compare).members := by
  have hAll : (toInt h.last).toNat = h.members.length := by
    rw [toInt_small hSmall]
    rfl
  simp only [sort, hAll, List.take_length, List.drop_length, List.append_nil]
  exact hLib.sorted hOrder

theorem resize_spec {size : Nat} (hPos : 0 < size) (hFits : h.last ≤ size) :
    Barring {noMemory} (h.resize lib size) fun h' =>
      h' = { h with size := size } ∧ h'.Laid ∧ lib.realloc size = true := by
  rw [resize, if_neg (by omega)]
  cases hMem : lib.realloc size with
  | false => exact .error rfl
  | true =>
    rw [if_neg (by decide), if_neg (by omega)]
    exact .pure ⟨rfl, ⟨hFits, hPos⟩, rfl⟩

/-- `h'` is `h` with the element put in, in order if there is one. -/
structure Put (lib : HeapLib) (compare : α → α → Int) (elem : α) (h h' : Heap α) : Prop where
  laid : h'.Laid
  sized : Sized lib h h'
  perm : h'.members.Perm (elem :: h.members)
  sorted : h.last < 2 ^ 30 → Preorders compare {x | x ∈ elem :: h.members} → Sorted compare h'.members

theorem put_sort (hLib : lib.Sorts) (elem : α) {size : Nat} (hRoom : h.last < size)
    (hSized : size = h.size ∨ lib.realloc size = true) :
    Put lib compare elem h (sort lib compare ⟨h.members ++ [elem], size⟩) := by
  have hAppend := List.perm_append_singleton elem h.members
  have hPerm : (sort lib compare ⟨h.members ++ [elem], size⟩).members.Perm (elem :: h.members) :=
    (sort_perm hLib _).trans hAppend
  have hLast : (⟨h.members ++ [elem], size⟩ : Heap α).last = h.last + 1 := hAppend.length_eq
  refine ⟨⟨?_, Nat.zero_lt_of_lt hRoom⟩, hSized, hPerm, ?_⟩
  · exact hPerm.length_eq.trans_le hRoom
  · intro hSmall hOrder
    apply sort_sorted hLib
    · omega
    · exact hOrder.mono fun x hx => hAppend.mem_iff.mp hx

theorem grow_spec (hLaid : h.Laid) :
    Barring {noMemory} (h.grow lib) fun k => k.members = h.members ∧ h.last < k.size ∧ Sized lib h k := by
  have hFits := hLaid.fits
  have hPos := hLaid.pos
  rw [grow]
  cases hFull : h.isFull with
  | false =>
    have hNe : h.last ≠ h.size := by simpa [isFull] using hFull
    exact .pure ⟨rfl, by omega, .inl rfl⟩
  | true =>
    apply (resize_spec (show 0 < h.size * 2 by omega) (by omega)).mono
    rintro k ⟨rfl, -, hRoom⟩
    exact ⟨rfl, show h.last < h.size * 2 by omega, .inr hRoom⟩

theorem add_put (hLib : lib.Sorts) (hLaid : h.Laid) (elem : α) :
    Barring {noMemory} (h.add lib compare elem) (Put lib compare elem h) := by
  apply (grow_spec hLaid).bind
  rintro ⟨members, size⟩ ⟨rfl, hLast, hSized⟩
  rw [if_pos (show (⟨h.members, size⟩ : Heap α).last < size from hLast)]
  exact .pure (put_sort hLib elem hLast hSized)

/-- `h'` is `h` with the element put in, in order if there is one. -/
structure Added (compare : α → α → Int) (elem : α) (h h' : Heap α) : Prop where
  valid : h'.Valid
  perm : h'.members.Perm (elem :: h.members)
  sorted : Preorders compare {x | x ∈ elem :: h.members} → Sorted compare h'.members

theorem add_spec (hLib : lib.Sound) (hValid : h.Valid) (elem : α) :
    Barring {noMemory} (h.add lib compare elem) (Added compare elem h) := by
  apply (add_put hLib.sorts hValid.laid elem).mono
  intro h' hPut
  exact ⟨hValid.of_sized hLib hPut.laid hPut.sized, hPut.perm, hPut.sorted hValid.last_lt⟩

/-- The place `i` of an element that compares equal, or `last` if there is none in order. -/
def Found (probe : α → Int) (h : Heap α) (i : Nat) : Prop :=
  (∃ x, h.members[i]? = some x ∧ probe x = 0) ∨
    (i = h.last ∧ (Split probe h.members → ∀ x ∈ h.members, probe x ≠ 0))

theorem middle_eq {ii jj : Int} (hii : 0 ≤ ii) (hLe : ii ≤ jj) (hjj : jj < 2 ^ 30) :
    (Int.bmod (jj + ii) (2 ^ 32)).tdiv 2 = (jj + ii) / 2 := by
  rw [Int.bmod_eq_of_le (by omega) (by omega)]
  exact Int.tdiv_eq_ediv_of_nonneg (by omega)

/-- The interval gets smaller with each round, and what is outside of it is not equal. -/
theorem findLoop_spec {members : List α} (hSmall : members.length < 2 ^ 30) {fuel : Nat} {ii jj : Int}
    (hii : 0 ≤ ii) (hjj : jj < members.length) (hMeet : ii ≤ jj + 1) (hFuel : jj + 1 - ii < fuel)
    (hBounds : Split probe members → Bounds probe members ii.toNat (jj + 1).toNat) :
    ∃ r, findLoop probe members fuel ii jj = .ok r ∧
      match r with
      | some k => ∃ x, members[k]? = some x ∧ probe x = 0
      | none => Split probe members → ∀ x ∈ members, probe x ≠ 0 := by
  induction fuel generalizing ii jj with
  | zero => omega
  | succ fuel ih =>
    rw [findLoop]
    split
    · rename_i hLe
      rw [middle_eq hii hLe (by omega)]
      obtain ⟨k, hk⟩ := Int.eq_ofNat_of_zero_le (show 0 ≤ (jj + ii) / 2 by omega)
      rw [hk, if_neg (by omega), Int.toNat_natCast]
      obtain ⟨x, hx⟩ : ∃ x, members[k]? = some x := ⟨_, List.getElem?_eq_getElem (by omega)⟩
      simp only [hx]
      split
      · rename_i hZero
        exact ⟨some k, rfl, x, hx, hZero⟩
      · rename_i hNe
        split
        · rename_i hBelow
          apply ih (by omega) hjj (by omega) (by push_cast at hFuel; omega)
          intro hSplit
          exact (hBounds hSplit).right hSplit hx hBelow
        · apply ih hii (by omega) (by omega) (by push_cast at hFuel; omega)
          intro hSplit
          have hLeft := (hBounds hSplit).left hSplit hx (by omega)
          rwa [show ((k : Int) - 1 + 1).toNat = k by omega]
    · rename_i hEmpty
      refine ⟨none, rfl, ?_⟩
      intro hSplit
      exact (hBounds hSplit).absent (by omega)

theorem find_found (hLast : h.last < 2 ^ 30) (probe : α → Int) :
    ∃ i, h.find probe = .ok i ∧ Found probe h i := by
  have hSmall : h.members.length < 2 ^ 30 := hLast
  have hLast : toInt ((h.members.length + sizeMod - 1) % sizeMod) = (h.members.length : Int) - 1 := by
    cases hLen : h.members.length with
    | zero => rfl
    | succ n =>
      have hMod : (n + 1 + sizeMod - 1) % sizeMod = n := by
        rw [show n + 1 + sizeMod - 1 = n + sizeMod by omega, Nat.add_mod_right]
        exact Nat.mod_eq_of_lt (by simp only [sizeMod]; omega)
      rw [hMod, toInt_small (by omega)]
      push_cast
      omega
  have hWhole : Split probe h.members →
      Bounds probe h.members (0 : Int).toNat (((h.members.length : Int) - 1) + 1).toNat := by
    intro _
    rw [show ((h.members.length : Int) - 1 + 1).toNat = h.members.length by omega]
    exact Bounds.whole probe h.members
  obtain ⟨r, hr, hSpec⟩ := findLoop_spec hSmall (le_refl 0) (by omega)
    (by omega) (show _ < ((h.members.length + 1 : Nat) : Int) by push_cast; omega) hWhole
  refine ⟨r.getD h.last, ?_, ?_⟩
  · simp only [find, last, hLast, hr]
    rfl
  · cases r with
    | none => exact .inr ⟨rfl, hSpec⟩
    | some k => exact .inl hSpec

theorem find_spec (hValid : h.Valid) (probe : α → Int) : ∃ i, h.find probe = .ok i ∧ Found probe h i :=
  find_found hValid.last_lt probe

theorem findLoop_congr {p q : α → Int} {members : List α} (hSame : ∀ x ∈ members, p x = q x) (fuel : Nat)
    (ii jj : Int) : findLoop p members fuel ii jj = findLoop q members fuel ii jj := by
  induction fuel generalizing ii jj with
  | zero => rfl
  | succ fuel ih =>
    simp only [findLoop, ih]
    split
    · split
      · rfl
      · split
        · rfl
        · rename_i x hx
          rw [hSame x (List.mem_of_getElem? hx)]
    · rfl

theorem find_congr {p q : α → Int} (hSame : ∀ x ∈ h.members, p x = q x) : h.find p = h.find q := by
  rw [find, find, findLoop_congr hSame]

/-- An element that compares equal is taken out, or there is none. -/
def Removed (probe : α → Int) (h : Heap α) (r : Heap α × Bool) : Prop :=
  (r.2 = true ∧ ∃ i x, h.members[i]? = some x ∧ probe x = 0 ∧ r.1.members = h.members.eraseIdx i) ∨
    (r.2 = false ∧ r.1 = h ∧ (Split probe h.members → ∀ x ∈ h.members, probe x ≠ 0))

theorem delete_removed (hLaid : h.Laid) (hSmall : h.last < 2 ^ 30) :
    Barring {noMemory} (h.delete lib probe) fun r => r.1.Laid ∧ Sized lib h r.1 ∧ Removed probe h r := by
  obtain ⟨i, hFind, hFound⟩ := find_found hSmall probe
  rw [delete, bind_of_ok hFind]
  rcases hFound with ⟨x, hx, hZero⟩ | ⟨rfl, hAbsent⟩
  · obtain ⟨hLt, -⟩ := List.getElem?_eq_some_iff.mp hx
    have hFits := hLaid.fits
    have hLess : (h.members.eraseIdx i).length + 1 = h.last := List.length_eraseIdx_add_one hLt
    have hGone : (⟨h.members.eraseIdx i, h.size⟩ : Heap α).Laid :=
      ⟨show (h.members.eraseIdx i).length ≤ h.size by omega, hLaid.pos⟩
    rw [if_pos (show h.valid i = true from decide_eq_true hLt)]
    dsimp only
    split
    · rename_i hHalf
      apply (resize_spec (by omega) (by omega)).bind
      rintro k ⟨rfl, hNew, hRoom⟩
      exact .pure ⟨hNew, .inr hRoom, .inl ⟨rfl, i, x, hx, hZero, rfl⟩⟩
    · exact .pure ⟨hGone, .inl rfl, .inl ⟨rfl, i, x, hx, hZero, rfl⟩⟩
  · rw [if_neg (show ¬h.valid h.last = true by simp [valid])]
    exact .pure ⟨hLaid, .inl rfl, .inr ⟨rfl, rfl, hAbsent⟩⟩

/-- What `Heap_delete` comes to: an element that compares equal is taken out, or there is none. -/
structure Deleted (probe : α → Int) (h : Heap α) (r : Heap α × Bool) : Prop where
  valid : r.1.Valid
  result : (r.2 = true ∧ ∃ i x, h.members[i]? = some x ∧ probe x = 0 ∧ r.1.members = h.members.eraseIdx i) ∨
    (r.2 = false ∧ r.1 = h ∧ (Split probe h.members → ∀ x ∈ h.members, probe x ≠ 0))

theorem delete_spec (hLib : lib.Sound) (hValid : h.Valid) :
    Barring {noMemory} (h.delete lib probe) (Deleted probe h) := by
  apply (delete_removed hValid.laid hValid.last_lt).mono
  rintro r ⟨hLaid, hSized, hRemoved⟩
  exact ⟨hValid.of_sized hLib hLaid hSized, hRemoved⟩

theorem Deleted.sublist {r : Heap α × Bool} (hDeleted : Deleted probe h r) : r.1.members.Sublist h.members := by
  rcases hDeleted.result with ⟨-, i, x, -, -, hEq⟩ | ⟨-, hEq, -⟩
  · rw [hEq]
    exact List.eraseIdx_sublist _ _
  · rw [hEq]

/-- With an order on all that is in the heap, exactly the element asked for is taken out. -/
theorem Removed.erase [DecidableEq α] {S : Set α} (hOrder : Orders compare S) (hS : ∀ x ∈ h.members, x ∈ S)
    {key : α} (hKey : key ∈ S) (hSorted : Sorted compare h.members) {r : Heap α × Bool}
    (hRemoved : Removed (compare · key) h r) :
    r.1.members.Perm (h.members.erase key) ∧ Sorted compare r.1.members ∧
      (r.2 = true ↔ key ∈ h.members) := by
  rcases hRemoved with ⟨hTrue, i, x, hx, hZero, hEq⟩ | ⟨hFalse, hEq, hAbsent⟩
  · have hMem := List.mem_of_getElem? hx
    obtain rfl := (hOrder.eq (hS x hMem) hKey).mp hZero
    obtain ⟨hLt, hGet⟩ := List.getElem?_eq_some_iff.mp hx
    rw [hEq]
    refine ⟨?_, List.Pairwise.sublist (List.eraseIdx_sublist _ _) hSorted, ?_⟩
    · apply (List.perm_cons x).mp
      have hCons := List.getElem_cons_eraseIdx_perm hLt
      rw [hGet] at hCons
      exact hCons.trans (List.perm_cons_erase hMem)
    · exact iff_of_true hTrue hMem
  · have hNot : key ∉ h.members := by
      intro hMem
      have hSplit := hSorted.split hOrder.toPreorders hS hKey
      exact hAbsent hSplit key hMem ((hOrder.eq hKey hKey).mpr rfl)
    rw [hEq, List.erase_of_not_mem hNot]
    exact ⟨List.Perm.refl _, hSorted, iff_of_false (by simp [hFalse]) hNot⟩

theorem Deleted.erase [DecidableEq α] {S : Set α} (hOrder : Orders compare S) (hS : ∀ x ∈ h.members, x ∈ S)
    {key : α} (hKey : key ∈ S) (hSorted : Sorted compare h.members) {r : Heap α × Bool}
    (hDeleted : Deleted (compare · key) h r) :
    r.1.members.Perm (h.members.erase key) ∧ Sorted compare r.1.members ∧
      (r.2 = true ↔ key ∈ h.members) :=
  Removed.erase hOrder hS hKey hSorted hDeleted.result

end Laws

end Heap

end Utu.Hub
