import Utu.Stackish.Node

/-!
# Destroying a tree without recursion

`Node_destroy` walks the sibling and child links with three arrays of
`MAX_TREE_DEEP` entries and stops the process when a path no longer fits. The
walk below keeps the arrays as one list, innermost entry first, and records the
nodes it has freed, so that a later read of one of them is a fault.
-/

namespace Utu.Stackish
open LinkedForest
set_option autoImplicit false

def maxTreeDeep : Nat := 128

/-- An entry of the arrays `_path_`, `_right_` and `_pass_`. -/
structure PathEntry where
  node : Nat
  right : Option Nat
  pass : Nat
deriving DecidableEq, Repr

inductive Walk where
  | descend (cn : Option Nat)
  | ascend
deriving DecidableEq, Repr

section Walk
variable {D : Type}

/-- The macro with the sibling as its left and the child as its right link, in post-order. -/
def walk (h : Heap D) : Nat → Walk → List PathEntry → List Nat → Run (List Nat)
  | 0, _, _, _ => throw .outOfFuel
  | fuel + 1, .descend none, path, freed => walk h fuel .ascend path freed
  | fuel + 1, .descend (some cn), path, freed =>
    if cn ∈ freed then throw .useAfterFree
    else
      match h[cn]? with
      | none => throw .badPointer
      | some node =>
        if maxTreeDeep ≤ path.length + 1 then throw (.assertFailed "the binary_tree is too deep")
        else walk h fuel (.descend node.sibling) (⟨cn, node.child, 0⟩ :: path) freed
  | _ + 1, .ascend, [], freed => pure freed
  | fuel + 1, .ascend, entry :: path, freed =>
    match entry.right with
    | none => walk h fuel .ascend path (freed ++ [entry.node])
    | some cn =>
      walk h fuel (.descend (some cn)) (⟨entry.node, none, entry.pass + 1⟩ :: path)
        (if entry.pass = 1 then freed ++ [entry.node] else freed)

/-- `Node_destroy`: the freed nodes in the order they are freed. A walk makes at most two steps
down and two steps up at every node. -/
def nodeDestroy (h : Heap D) (root : Option Nat) : Run (List Nat) :=
  match root with
  | none => pure []
  | some _ => walk h (4 * h.length + 2) (.descend root) [] []

end Walk

section Correct
variable {D : Type} {h : Heap D}

theorem child_not_freed {c s : Located (NodeData D)} {freed : List Nat}
    (hFreed : ∀ x ∈ c.addrs, x ∉ freed) (hDisj : ∀ x ∈ c.addrs, ∀ y ∈ s.addrs, x ≠ y) :
    ∀ x ∈ c.addrs, x ∉ freed ++ s.postorder.map Prod.fst := by
  intro x hx hMem
  rw [List.mem_append] at hMem
  rcases hMem with hMem | hMem
  · exact hFreed x hx hMem
  · obtain ⟨y, hy, rfl⟩ := List.mem_map.mp hMem
    exact hDisj y.1 hx y.1 (Forest.mem_addrs_of_mem_postorder hy) rfl

/-- One walk over a linked forest frees it in post-order and returns to the path it came from. -/
theorem walk_linked (f : Located (NodeData D)) (path : List PathEntry)
    (freed : List Nat) (hf : Linked h f) (hNodup : f.addrs.Nodup)
    (hFreed : ∀ a ∈ f.addrs, a ∉ freed) (hDeep : f.height + path.length < maxTreeDeep) :
    ∃ k ≤ 4 * f.size + 1, ∀ fuel, walk h (fuel + k) (.descend f.ptr) path freed =
      walk h fuel .ascend path (freed ++ f.postorder.map Prod.fst) := by
  induction f generalizing path freed with
  | nil => exact ⟨1, by simp, fun fuel => by simp [Forest.ptr, walk, Forest.postorder]⟩
  | node a c s ihc ihs =>
    obtain ⟨⟨par, hCell⟩, hc, hs⟩ := hf
    simp only [Forest.addrs, List.nodup_cons, List.mem_append, not_or, List.nodup_append] at hNodup
    obtain ⟨⟨hac, has⟩, hcn, hsn, hDisj⟩ := hNodup
    simp only [Forest.height] at hDeep
    have hStep : ∀ fuel, walk h (fuel + 1) (.descend (some a.1)) path freed =
        walk h fuel (.descend s.ptr) (⟨a.1, c.ptr, 0⟩ :: path) freed := by
      intro fuel
      have hRoom : ¬ maxTreeDeep ≤ path.length + 1 := by omega
      simp [walk, hFreed a.1 (by simp [Forest.addrs]), hCell, hRoom]
    obtain ⟨k, hk, hSib⟩ := ihs (⟨a.1, c.ptr, 0⟩ :: path) freed hs hsn
      (fun b hb => hFreed b (by simp [Forest.addrs, hb])) (by simp only [List.length_cons]; omega)
    cases c with
    | nil =>
      refine ⟨k + 2, by simp only [Forest.size] at hk ⊢; omega, fun fuel => ?_⟩
      rw [show fuel + (k + 2) = (fuel + 1) + k + 1 by omega]
      change walk h _ (.descend (some a.1)) path freed = _
      rw [hStep, hSib]
      simp [walk, Forest.ptr, Forest.postorder]
    | node b c' s' =>
      have hKids := child_not_freed (s := s)
        (fun x hx => hFreed x (by simp only [Forest.addrs] at hx ⊢; grind)) hDisj
      obtain ⟨l, hl, hChild⟩ := ihc (⟨a.1, none, 1⟩ :: path) _ hc hcn hKids
        (by simp only [List.length_cons]; omega)
      refine ⟨k + l + 3, by simp only [Forest.size] at hk hl ⊢; omega, fun fuel => ?_⟩
      rw [show fuel + (k + l + 3) = (fuel + 1 + l + 1) + k + 1 by omega]
      change walk h _ (.descend (some a.1)) path freed = _
      rw [hStep, hSib]
      change walk h (fuel + 1 + l) (.descend (Forest.ptr (.node b c' s')))
        (⟨a.1, none, 1⟩ :: path) (freed ++ s.postorder.map Prod.fst) = _
      rw [hChild]
      simp [walk, Forest.postorder]

/-- A path that does not fit stops the process. -/
theorem walk_deep (f : Located (NodeData D)) (path : List PathEntry)
    (freed : List Nat) (hf : Linked h f) (hNodup : f.addrs.Nodup)
    (hFreed : ∀ a ∈ f.addrs, a ∉ freed) (hPath : path.length < maxTreeDeep)
    (hDeep : maxTreeDeep ≤ f.height + path.length) :
    ∃ k ≤ 4 * f.size + 1, ∀ fuel, walk h (fuel + k) (.descend f.ptr) path freed =
      throw (.assertFailed "the binary_tree is too deep") := by
  induction f generalizing path freed with
  | nil => simp only [Forest.height] at hDeep; omega
  | node a c s ihc ihs =>
    obtain ⟨⟨par, hCell⟩, hc, hs⟩ := hf
    simp only [Forest.addrs, List.nodup_cons, List.mem_append, not_or, List.nodup_append] at hNodup
    obtain ⟨⟨hac, has⟩, hcn, hsn, hDisj⟩ := hNodup
    simp only [Forest.height] at hDeep
    have hSelf : a.1 ∉ freed := hFreed a.1 (by simp [Forest.addrs])
    have hSibFreed : ∀ b ∈ s.addrs, b ∉ freed := fun b hb => hFreed b (by simp [Forest.addrs, hb])
    by_cases hRoom : maxTreeDeep ≤ path.length + 1
    · refine ⟨1, by omega, fun fuel => ?_⟩
      simp [Forest.ptr, walk, hSelf, hCell, hRoom]
    have hStep : ∀ fuel, walk h (fuel + 1) (.descend (some a.1)) path freed =
        walk h fuel (.descend s.ptr) (⟨a.1, c.ptr, 0⟩ :: path) freed := by
      intro fuel
      simp [walk, hSelf, hCell, hRoom]
    by_cases hSibDeep : maxTreeDeep ≤ s.height + (path.length + 1)
    · obtain ⟨k, hk, hSib⟩ := ihs (⟨a.1, c.ptr, 0⟩ :: path) freed hs hsn hSibFreed
        (by simp only [List.length_cons]; omega) (by simpa using hSibDeep)
      refine ⟨k + 1, by simp only [Forest.size]; omega, fun fuel => ?_⟩
      change walk h (fuel + k + 1) (.descend (some a.1)) path freed = _
      rw [hStep, hSib]
    · obtain ⟨k, hk, hSib⟩ := walk_linked s (⟨a.1, c.ptr, 0⟩ :: path) freed hs hsn hSibFreed
        (by simp only [List.length_cons]; omega)
      cases c with
      | nil => simp only [Forest.height] at hDeep; omega
      | node b c' s' =>
        have hKids := child_not_freed (s := s)
          (fun x hx => hFreed x (by simp only [Forest.addrs] at hx ⊢; grind)) hDisj
        obtain ⟨l, hl, hChild⟩ := ihc (⟨a.1, none, 1⟩ :: path) _ hc hcn hKids
          (by simp only [List.length_cons]; omega) (by simp only [List.length_cons]; omega)
        refine ⟨k + l + 2, by simp only [Forest.size] at hk hl ⊢; omega, fun fuel => ?_⟩
        rw [show fuel + (k + l + 2) = (fuel + l + 1) + k + 1 by omega]
        change walk h _ (.descend (some a.1)) path freed = _
        rw [hStep, hSib]
        exact hChild fuel

/-- `Node_destroy` frees the nodes in post-order, or stops on a path of `MAX_TREE_DEEP` nodes. -/
theorem nodeDestroy_linked {f : Located (NodeData D)} (hf : Linked h f) (hNodup : f.addrs.Nodup) :
    nodeDestroy h f.ptr =
      if f.height < maxTreeDeep then .ok (f.postorder.map Prod.fst)
      else .error (.assertFailed "the binary_tree is too deep") := by
  have hSize := hf.size_le hNodup
  cases f with
  | nil => rfl
  | node a c s =>
    change walk h (4 * h.length + 2) _ [] [] = _
    split
    · rename_i hDeep
      obtain ⟨k, hk, hWalk⟩ := walk_linked _ [] [] hf hNodup (by simp) (by simpa using hDeep)
      rw [show 4 * h.length + 2 = (4 * h.length + 1 - k) + 1 + k by omega, hWalk]
      rfl
    · rename_i hDeep
      obtain ⟨k, hk, hWalk⟩ := walk_deep _ [] [] hf hNodup (by simp) (by decide)
        (by simpa using hDeep)
      rw [show 4 * h.length + 2 = (4 * h.length + 2 - k) + k by omega, hWalk]
      rfl

theorem nodeDestroy_represents {par root : Option Nat} {t : Tree D}
    (ht : Represents h par root t) :
    if t.height < maxTreeDeep then ∃ freed, nodeDestroy h root = .ok freed
    else nodeDestroy h root = .error (.assertFailed "the binary_tree is too deep") := by
  obtain ⟨f, rfl, rfl, hStored, hNodup⟩ := ht
  rw [nodeDestroy_linked hStored.linked hNodup, Forest.height_erase]
  split
  · exact ⟨_, rfl⟩
  · rfl

end Correct

end Utu.Stackish
