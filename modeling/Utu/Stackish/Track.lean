import Utu.Stackish.Parser
import Utu.Stackish.Token

/-!
# The handlers build the document

A store tracks a document when the open groups of the document are a spine of
its heap and the two parser pointers are the ends of that spine. Every handler
then does to the heap what its token does to the document. The heap the parser
started from stays as it was: all of its own nodes are behind it.
-/

namespace Utu.Stackish
open LinkedForest
set_option autoImplicit false

variable {D : Type}

structure Tracks (h₀ : Heap D) (st : Store D) (d : Doc D) (s : Spine (NodeData D)) : Prop where
  errno : st.errno = 0
  holds : s.Holds st.heap
  opened : ∀ f ∈ s, f.1.2 = ⟨none, .group⟩
  doc : s.map (fun f => f.2.erase) = d
  current : st.current = s.top
  root : st.root = s.bottom
  kept : Extends h₀ st.heap
  behind : ∀ a ∈ s.addrs, h₀.length ≤ a

def Tracked (h₀ : Heap D) (st : Store D) (d : Doc D) : Prop := ∃ s, Tracks h₀ st d s

theorem tracked_init (h₀ : Heap D) : Tracked h₀ ⟨h₀, 0, none, none⟩ [] :=
  ⟨[], rfl, .nil _, by simp, rfl, rfl, rfl, .refl _, by simp [Spine.addrs]⟩

namespace Tracked
variable {h₀ : Heap D} {st : Store D} {d : Doc D} {kids : Tree D} {outer : Doc D}

theorem errno_eq (h : Tracked h₀ st d) : st.errno = 0 := by
  obtain ⟨s, hs⟩ := h
  exact hs.errno

theorem fail_eq (h : Tracked h₀ st d) : st.fail = st := by
  have hErrno := h.errno_eq
  cases st
  cases hErrno
  rfl

theorem kept (h : Tracked h₀ st d) : Extends h₀ st.heap := by
  obtain ⟨s, hs⟩ := h
  exact hs.kept

theorem empty (h : Tracked h₀ st []) : st.root = none ∧ st.current = none := by
  obtain ⟨s, hs⟩ := h
  have hNil : s = [] := List.map_eq_nil_iff.mp hs.doc
  subst hNil
  exact ⟨hs.root, hs.current⟩

/-- The innermost open group as it lies in the heap. -/
theorem innermost (h : Tracked h₀ st (kids :: outer)) :
    ∃ (a : Nat) (k : Located (NodeData D)) (rest : Spine (NodeData D)),
      k.erase = kids ∧ rest.map (fun f => f.2.erase) = outer ∧
      Tracks h₀ st (kids :: outer) (((a, ⟨none, .group⟩), k) :: rest) ∧
      st.current = some a ∧ st.root ≠ none ∧
      st.heap[a]? = some ⟨⟨none, .group⟩, Spine.top rest, Spine.kids rest, k.ptr⟩ := by
  obtain ⟨s, hs⟩ := h
  obtain ⟨⟨⟨a, data⟩, k⟩, rest, rfl, hKids, hOuter⟩ := List.map_eq_cons_iff.mp hs.doc
  have hData : data = ⟨none, .group⟩ := hs.opened _ List.mem_cons_self
  subst hData
  obtain ⟨b, -, hBottom⟩ := Spine.bottom_mem ((a, ⟨none, .group⟩), k) rest
  refine ⟨a, k, rest, hKids, hOuter, hs, hs.current, ?_, hs.holds.cell⟩
  rw [hs.root, hBottom]
  exact Option.some_ne_none b

/-- The root of the store is the document as far as it is built. -/
theorem represents (h : Tracked h₀ st d) : Represents st.heap none st.root d.root := by
  obtain ⟨s, hs⟩ := h
  rw [hs.root, ← hs.doc]
  cases s with
  | nil => exact ⟨.nil, rfl, rfl, trivial, List.nodup_nil⟩
  | cons frame rest =>
    have hHolds := hs.holds
    have hOpened := hs.opened
    clear hs
    -- Closing the innermost group moves no cell, so the groups can be closed one by one.
    induction rest generalizing frame with
    | nil =>
      have hData := hOpened frame List.mem_cons_self
      simpa [hData, Doc.root, Spine.bottom] using hHolds.represents
    | cons next rest ih =>
      have hFrame := hOpened frame List.mem_cons_self
      have hNext : ∀ f ∈ (next.1, .node frame.1 frame.2 next.2) :: rest,
          f.1.2 = ⟨none, .group⟩ := by
        simp only [List.mem_cons, forall_eq_or_imp] at hOpened ⊢
        exact hOpened.2
      have hTree := ih _ hHolds.close hNext
      rw [Spine.bottom_kids next.1 _ next.2] at hTree
      simpa [Doc.root, hFrame, Spine.bottom] using hTree

/-! ## The handlers -/

theorem handleStart_tracked (h : Tracked h₀ st d) : Tracked h₀ (handleStart st) (.nil :: d) := by
  obtain ⟨s, hs⟩ := h
  have hTop : ∀ p, st.current = some p → h₀.length ≤ p := by
    rw [hs.current]
    cases s with
    | nil => intro p hp; cases hp
    | cons frame rest =>
      intro p hp
      cases hp
      exact hs.behind _ (by simp [Spine.addrs])
  refine ⟨((st.heap.length, ⟨none, .group⟩), .nil) :: s, hs.errno, ?_, ?_, ?_, rfl, ?_, ?_, ?_⟩
  · have hOpen := hs.holds.create_open ⟨none, .group⟩
    rw [← hs.current] at hOpen
    exact hOpen
  · simpa using hs.opened
  · simp [hs.doc]
  · cases s with
    | nil => simp [handleStart, hs.root, Spine.bottom]
    | cons frame rest =>
      obtain ⟨b, -, hBottom⟩ := Spine.bottom_mem frame rest
      simp [handleStart, hs.root, Spine.bottom, hBottom]
  · exact hs.kept.create hTop _
  · have hLen := hs.kept.length_le
    simpa [Spine.addrs, Forest.addrs, hLen] using hs.behind

/-- A new leaf is the newest child of the innermost group. -/
theorem create_leaf (h : Tracked h₀ st (kids :: outer)) {current : Nat}
    (hCurrent : st.current = some current) (value : Value D) :
    Tracked h₀ { st with heap := nodeCreate st.heap (some current) value }
      (.node ⟨none, value⟩ .nil kids :: outer) := by
  obtain ⟨a, k, rest, hKids, hOuter, hs, hTop, -, -⟩ := h.innermost
  rw [hTop] at hCurrent
  cases hCurrent
  have hBehind := hs.behind
  have hLen := hs.kept.length_le
  have hParent : ∀ p, some current = some p → h₀.length ≤ p := by
    intro p hp
    cases hp
    exact hBehind _ (by simp [Spine.addrs])
  refine ⟨((current, ⟨none, .group⟩), .node (st.heap.length, ⟨none, value⟩) .nil k) :: rest,
    hs.errno, hs.holds.create_leaf _, ?_, ?_, hs.current, ?_, hs.kept.create hParent _, ?_⟩
  · simpa using hs.opened
  · simp [hKids, hOuter]
  · exact hs.root.trans (Spine.bottom_kids _ _ _ _)
  · simp only [Spine.addrs, Forest.addrs, List.mem_cons, List.mem_append] at hBehind ⊢
    grind

theorem handlePush_empty (h : Tracked h₀ st []) (lib : DoubleLib D) (type : NodeType)
    (start : Bytes) (length : Nat) : handlePush lib st type start length = .ok (false, st) := by
  simp only [handlePush, h.empty.2, h.fail_eq]
  rfl

theorem handlePush_open (h : Tracked h₀ st (kids :: outer)) (lib : DoubleLib D) :
    ∃ current, st.current = some current ∧ ∀ type start length,
      handlePush lib st type start length =
        .ok (nodeFromStr lib st current type start length) := by
  obtain ⟨a, k, rest, -, -, -, hCurrent, hRoot, hCell⟩ := h.innermost
  refine ⟨a, hCurrent, fun type start length => ?_⟩
  simp only [handlePush, hCurrent, hCell, h.errno_eq, hRoot]
  rfl

theorem handleWord_empty (h : Tracked h₀ st []) (start : Option Bytes) (length : Nat) :
    handleWord st start length = .ok (-1, st) := by
  simp only [handleWord, h.empty.1, h.fail_eq]
  rfl

/-- Naming the innermost group and closing it. -/
theorem handleWord_open (h : Tracked h₀ st (kids :: outer)) {start : Option Bytes} {length : Nat}
    {name : Option Bytes} (hName : wordName start length = .ok name) :
    match closeGroup name (kids :: outer) with
    | .next d => ∃ st', handleWord st start length = .ok (0, st') ∧ Tracked h₀ st' d
    | .closed t => ∃ st', handleWord st start length = .ok (1, st') ∧ st'.errno = 0 ∧
        Extends h₀ st'.heap ∧ Represents st'.heap none st'.root t
    | _ => False := by
  obtain ⟨a, k, rest, rfl, rfl, hs, hCurrent, -, hCell⟩ := h.innermost
  have hBehind : h₀.length ≤ a := hs.behind a (by simp [Spine.addrs])
  have hNamed : nodeName st.heap a name = setData st.heap a ⟨name, .group⟩ := by
    simp [nodeName, hCell]
  have hHolds := hs.holds.setTop ⟨name, .group⟩
  have hKept := hs.kept.setData hBehind ⟨name, .group⟩
  have hRun : ∀ root, st.root = some root → handleWord st start length =
      .ok (if a = root then (1, { st with heap := setData st.heap a ⟨name, .group⟩ })
        else (0, { st with heap := setData st.heap a ⟨name, .group⟩, current := Spine.top rest })) := by
    intro root hRoot
    simp only [handleWord, hRoot, hCurrent, hs.errno, hCell, hName, ne_eq, not_true_eq_false, if_false]
    change (if a = root then _ else _) = _
    rw [hNamed]
    split <;> rfl
  cases rest with
  | nil =>
    have hRoot : st.root = some a := hs.root
    refine ⟨{ st with heap := setData st.heap a ⟨name, .group⟩ }, ?_, hs.errno, hKept, ?_⟩
    · rw [hRun a hRoot, if_pos rfl]
    · simpa [hRoot] using hHolds.represents
  | cons frame rest =>
    obtain ⟨b, hb, hBottom⟩ := Spine.bottom_mem frame rest
    have hRoot : st.root = some b := hs.root.trans hBottom
    obtain ⟨-, hNotMem, -, -, -⟩ := hs.holds.split
    have hNe : a ≠ b := fun he => hNotMem (he ▸ hb)
    refine ⟨{ st with heap := setData st.heap a ⟨name, .group⟩, current := Spine.top (frame :: rest) },
      by rw [hRun b hRoot, if_neg hNe], (frame.1, .node (a, ⟨name, .group⟩) k frame.2) :: rest,
      hs.errno, hHolds.close, ?_, by simp, rfl, ?_, hKept, ?_⟩
    · have hOpened := hs.opened
      simp only [List.mem_cons, forall_eq_or_imp] at hOpened ⊢
      exact hOpened.2
    · exact (hRoot.trans hBottom.symm).trans (Spine.bottom_kids _ _ _ _)
    · have hAll := hs.behind
      simp only [Spine.addrs, Forest.addrs, List.mem_cons, List.mem_append] at hAll ⊢
      grind

theorem handleAttr_empty (h : Tracked h₀ st []) (start : Bytes) (length : Nat) :
    handleAttr st start length = .error .nullPointer := by
  simp only [handleAttr, h.empty.2]
  rfl

theorem handleAttr_childless (h : Tracked h₀ st (.nil :: outer)) (start : Bytes) (length : Nat) :
    handleAttr st start length = .ok (false, st) := by
  obtain ⟨a, k, rest, hKids, -, -, hCurrent, -, hCell⟩ := h.innermost
  have hk : k = .nil := by
    cases k with
    | nil => rfl
    | node => cases hKids
  subst hk
  simp only [handleAttr, hCurrent, hCell, Forest.ptr, h.fail_eq]
  rfl

/-- An attribute renames the newest child, whatever it was called before. -/
theorem handleAttr_child {data : NodeData D} {c s : Tree D}
    (h : Tracked h₀ st (.node data c s :: outer)) {start name : Bytes} {length : Nat}
    (hName : blk2bstr start (toInt length) = some name) :
    ∃ st', handleAttr st start length = .ok (true, st') ∧
      Tracked h₀ st' (.node { data with name := some name } c s :: outer) := by
  obtain ⟨a, k, rest, hKids, hOuter, hs, hCurrent, -, hCell⟩ := h.innermost
  obtain ⟨b, cl, sl, rfl⟩ : ∃ b cl sl, k = .node b cl sl := by
    cases k with
    | nil => cases hKids
    | node b cl sl => exact ⟨b, cl, sl, rfl⟩
  rw [Forest.erase_node, Forest.node.injEq] at hKids
  obtain ⟨rfl, rfl, rfl⟩ := hKids
  have hChild : st.heap[b.1]? = some ⟨b.2, some a, sl.ptr, cl.ptr⟩ := hs.holds.stored.2.1.1
  have hBehind : h₀.length ≤ b.1 := hs.behind b.1 (by simp [Spine.addrs, Forest.addrs])
  have hNamed : nodeName st.heap b.1 (some name) =
      setData st.heap b.1 { b.2 with name := some name } := by
    simp [nodeName, hChild]
  refine ⟨{ st with heap := setData st.heap b.1 { b.2 with name := some name } }, ?_,
    ((a, ⟨none, .group⟩), .node (b.1, { b.2 with name := some name }) cl sl) :: rest, hs.errno,
    hs.holds.setChild _, ?_, ?_, hs.current, ?_, hs.kept.setData hBehind _, hs.behind⟩
  · simp only [handleAttr, hCurrent, hCell, Forest.ptr, hs.errno, hName, hNamed]
    rfl
  · simpa using hs.opened
  · simp [hOuter]
  · exact hs.root.trans (Spine.bottom_kids _ _ _ _)

end Tracked

end Utu.Stackish
