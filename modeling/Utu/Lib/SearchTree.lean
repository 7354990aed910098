import Utu.Lib.Comparator

/-!
# Search in binary trees

A search goes down from the root and asks at each element on which side to go
on. What it asks can fail. If the elements stand in order, it comes to an
element that compares equal, and if there is only one, to that one.
-/

namespace SearchTree
open Comparator
set_option autoImplicit false

universe u v
variable {α : Type u} {ε : Type v}

/-- The elements from left to right -/
def elements : BinaryTree α → List α
  | .nil => []
  | .node a left right => elements left ++ a :: elements right

def search (probe : α → Except ε Int) : BinaryTree α → Except ε (Option α)
  | .nil => .ok none
  | .node a left right =>
    match probe a with
    | .error e => .error e
    | .ok c => if c < 0 then search probe left else if 0 < c then search probe right else .ok (some a)

variable {probe : α → Except ε Int} {t : BinaryTree α} {a : α}

theorem search_found (h : search probe t = .ok (some a)) : a ∈ elements t ∧ probe a = .ok 0 := by
  induction t with
  | nil => cases h
  | node b left right ihLeft ihRight =>
    rw [search] at h
    cases hProbe : probe b with
    | error e =>
      rw [hProbe] at h
      cases h
    | ok c =>
      simp only [hProbe] at h
      split at h
      · obtain ⟨hMem, hZero⟩ := ihLeft h
        exact ⟨List.mem_append_left _ hMem, hZero⟩
      · split at h
        · obtain ⟨hMem, hZero⟩ := ihRight h
          exact ⟨List.mem_append_right _ (List.mem_cons_of_mem b hMem), hZero⟩
        · cases h
          have hc : c = 0 := by omega
          exact ⟨List.mem_append_right _ List.mem_cons_self, hc ▸ hProbe⟩

theorem search_ok (hProbe : ∀ b ∈ elements t, ∃ c, probe b = .ok c) : ∃ k, search probe t = .ok k := by
  induction t with
  | nil => exact ⟨none, rfl⟩
  | node b left right ihLeft ihRight =>
    obtain ⟨c, hc⟩ := hProbe b (List.mem_append_right _ List.mem_cons_self)
    rw [search, hc]
    dsimp only
    split
    · exact ihLeft fun d hd => hProbe d (List.mem_append_left _ hd)
    · split
      · exact ihRight fun d hd => hProbe d (List.mem_append_right _ (List.mem_cons_of_mem b hd))
      · exact ⟨some b, rfl⟩

/-- If all questions are answered and the answers go with the order, an element that compares equal is
found. -/
theorem search_finds {p : α → Int} (hProbe : ∀ b ∈ elements t, probe b = .ok (p b))
    (hSplit : Split (fun b => -p b) (elements t)) (ha : a ∈ elements t) (hZero : p a = 0) :
    ∃ b, search probe t = .ok (some b) := by
  induction t with
  | nil => cases ha
  | node b left right ihLeft ihRight =>
    have hRoot : probe b = .ok (p b) := hProbe b (List.mem_append_right _ List.mem_cons_self)
    obtain ⟨hLeft, hRest, hCross⟩ := List.pairwise_append.mp hSplit
    obtain ⟨hFirst, hRight⟩ := List.pairwise_cons.mp hRest
    rw [search, hRoot]
    dsimp only
    split
    · -- what stands on the right is below, too
      rename_i hBelow
      apply ihLeft (fun c hc => hProbe c (List.mem_append_left _ hc)) hLeft
      rcases List.mem_append.mp ha with hMem | hMem
      · exact hMem
      · rcases List.mem_cons.mp hMem with rfl | hMem
        · omega
        · have hOrder := (hFirst a hMem).2
          beta_reduce at hOrder
          omega
    · split
      · rename_i hAbove
        apply ihRight (fun c hc => hProbe c (List.mem_append_right _ (List.mem_cons_of_mem b hc))) hRight
        rcases List.mem_append.mp ha with hMem | hMem
        · have hOrder := (hCross a hMem b List.mem_cons_self).1
          beta_reduce at hOrder
          omega
        · rcases List.mem_cons.mp hMem with rfl | hMem
          · omega
          · exact hMem
      · exact ⟨b, rfl⟩

end SearchTree
