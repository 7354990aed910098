import Utu.Stackish.Safety

/-!
# Releasing trees

`Node_destroy` follows the sibling and child links of any tree, whatever its
parent links are. It frees the nodes in post-order when no path along these links
is as long as its arrays, and a short text can describe a longer one.
-/

namespace Utu.Stackish
open LinkedForest
set_option autoImplicit false

variable {D : Type}

/-- A walk along sibling and child links. -/
def LinkPath (h : Heap D) (l : List Nat) : Prop := l.IsChain (Link h)

theorem exists_linkPath {h : Heap D} {f : Located (NodeData D)} (hf : Linked h f) :
    ∃ l, l.head? = f.ptr ∧ LinkPath h l ∧ l.length = f.height := by
  induction f with
  | nil => exact ⟨[], rfl, List.isChain_nil, rfl⟩
  | node a c s ihc ihs =>
    obtain ⟨⟨par, hCell⟩, hc, hs⟩ := hf
    have hExtend : ∀ g : Located (NodeData D), (∃ l, l.head? = g.ptr ∧ LinkPath h l ∧ l.length = g.height) →
        (∀ b, g.ptr = some b → Link h a.1 b) →
        ∃ l, l.head? = some a.1 ∧ LinkPath h l ∧ l.length = 1 + g.height := by
      rintro g ⟨l, hHead, hPath, hLen⟩ hLink
      refine ⟨a.1 :: l, rfl, ?_, by rw [List.length_cons, hLen, Nat.add_comm]⟩
      apply hPath.cons
      intro b hb
      exact hLink b (hHead.symm.trans hb)
    rcases Nat.le_total c.height s.height with hLe | hLe
    · rw [Forest.height, Nat.max_eq_right hLe]
      exact hExtend s (ihs hs) fun b hb => ⟨_, hCell, .inl hb⟩
    · rw [Forest.height, Nat.max_eq_left hLe]
      exact hExtend c (ihc hc) fun b hb => ⟨_, hCell, .inr hb⟩

theorem LinkPath.length_le {h : Heap D} {f : Located (NodeData D)} (hf : Linked h f) {l : List Nat}
    (hHead : l.head? = f.ptr) (hPath : LinkPath h l) : l.length ≤ f.height := by
  induction f generalizing l with
  | nil => rw [List.head?_eq_none_iff.mp hHead, List.length_nil, Forest.height]
  | node a c s ihc ihs =>
    obtain ⟨⟨par, hCell⟩, hc, hs⟩ := hf
    cases l with
    | nil => exact Nat.zero_le _
    | cons b l =>
      cases hHead
      obtain ⟨hFirst, hRest⟩ := List.isChain_cons.mp hPath
      have hNext : l = [] ∨ l.head? = s.ptr ∨ l.head? = c.ptr := by
        cases l with
        | nil => exact .inl rfl
        | cons b l =>
          obtain ⟨cell, hCell', hLink⟩ := hFirst b rfl
          rw [hCell] at hCell'
          cases hCell'
          exact .inr (hLink.imp Eq.symm Eq.symm)
      rw [List.length_cons, Forest.height]
      rcases hNext with rfl | hSib | hKid
      · rw [List.length_nil]
        omega
      · have hLe := ihs hs hSib hRest
        omega
      · have hLe := ihc hc hKid hRest
        omega

/-- Where no path has `MAX_TREE_DEEP` nodes, `Node_destroy` frees every node that the links lead to once,
in post-order, and so none before a node that its own links lead to. A read of a freed node would be a
fault of the walk. -/
theorem nodeDestroy_visits_once {h : Heap D} {f : Located (NodeData D)} (hf : Linked h f)
    (hNodup : f.addrs.Nodup)
    (hDeep : ∀ l, l.head? = f.ptr → LinkPath h l → l.length < maxTreeDeep) :
    ∃ freed, nodeDestroy h f.ptr = .ok freed ∧ freed = f.postorder.map Prod.fst ∧ freed.Nodup ∧
      (∀ b, b ∈ freed ↔ ∃ a, f.ptr = some a ∧ Relation.ReflTransGen (Link h) a b) ∧
      freed.Pairwise fun a b => ¬Relation.TransGen (Link h) a b := by
  obtain ⟨l, hHead, hPath, hLen⟩ := exists_linkPath hf
  have hHeight : f.height < maxTreeDeep := hLen ▸ hDeep l hHead hPath
  have hPerm := Forest.postorder_perm_addrs f
  refine ⟨_, ?_, rfl, hPerm.nodup_iff.mpr hNodup, ?_, hf.postorder_pairwise hNodup⟩
  · rw [nodeDestroy_linked hf hNodup, if_pos hHeight]
  · intro b
    rw [hPerm.mem_iff]
    exact hf.mem_addrs_iff

/-- A group with a sibling, and a child whose parent link is missing. -/
theorem nodeDestroy_visits_once_three :
    let group : NodeData Unit := ⟨none, .group⟩
    let h : Heap Unit := [⟨group, none, some 2, some 1⟩, ⟨group, none, none, none⟩, ⟨group, none, none, none⟩]
    nodeDestroy h (some 0) = .ok [2, 1, 0] := by
  intro group h
  have hLinked : Linked h (.node (0, group) (.node (1, group) .nil .nil) (.node (2, group) .nil .nil)) :=
    ⟨⟨none, rfl⟩, ⟨⟨none, rfl⟩, trivial, trivial⟩, ⟨none, rfl⟩, trivial, trivial⟩
  obtain ⟨freed, hFreed, rfl, -⟩ := nodeDestroy_visits_once hLinked (by decide) fun l hHead hPath =>
    (hPath.length_le hLinked hHead).trans_lt (by decide)
  exact hFreed

/-! ## Trees from a buffer -/

/-- A tree that can be released. -/
def Releasable (h : Heap D) (root : Option Nat) : Prop := ∃ freed, nodeDestroy h root = .ok freed

theorem releasable_none (h : Heap D) : Releasable h none := ⟨[], rfl⟩

theorem Represents.releasable_iff {h : Heap D} {par root : Option Nat} {t : Tree D}
    (ht : Represents h par root t) : Releasable h root ↔ t.height < maxTreeDeep := by
  have hDestroy := nodeDestroy_represents ht
  split at hDestroy
  · rename_i hHeight
    exact iff_of_true hDestroy hHeight
  · rename_i hHeight
    refine iff_of_false ?_ hHeight
    rintro ⟨freed, hFreed⟩
    rw [hDestroy] at hFreed
    cases hFreed

/-- The tree that a reading leaves behind, if it leaves one. -/
def Ending.tree (d : Doc D) : Ending D → Tree D
  | .ended | .refused _ => d.root
  | .closed t _ => t
  | .lexError | .crashed | .overrun => .nil

/-- The tree that the text describes has no path of `MAX_TREE_DEEP` nodes. -/
def Shallow (lib : DoubleLib D) (buf : Bytes) : Prop :=
  ∀ d x, ReadsTo lib buf 0 d x → (x.tree d).height < maxTreeDeep

theorem height_nil_lt : (.nil : Tree D).height < maxTreeDeep := by
  rw [Forest.height]
  decide

/-- A call that stops leaves no tree. -/
theorem Ends.height_of_error {buf : Bytes} {heap : Heap D} {d : Doc D} {e : Fault} {x : Ending D}
    (h : Ends buf heap d (.error e) x) : (x.tree d).height < maxTreeDeep := by
  cases x with
  | ended | refused | closed =>
    obtain ⟨root, heap', hOk, -⟩ := h
    cases hOk
  | lexError | crashed | overrun => exact height_nil_lt

theorem Ends.releasable_iff {buf : Bytes} {heap : Heap D} {d : Doc D} {r : Parsed D} {x : Ending D}
    (h : Ends buf heap d (.ok r) x) : Releasable r.heap r.root ↔ (x.tree d).height < maxTreeDeep := by
  cases x with
  | ended | refused | closed =>
    obtain ⟨root, heap', hOk, -, hTree⟩ := h
    cases hOk
    exact Represents.releasable_iff hTree
  | lexError =>
    simp only [Ends] at h
    split at h
    · obtain ⟨next, heap', hOk, -⟩ := h
      cases hOk
      exact iff_of_true (releasable_none _) height_nil_lt
    · cases h
  | crashed | overrun => cases h

/-- Every tree that `Node_parse` makes of a buffer can be released, if and only if the text describes a
tree without long paths. -/
theorem nodeParse_releasable_iff (lib : DoubleLib D) (buf : Bytes) (hLen : buf.length ≤ 65535) :
    (∀ heap errno r, Finishes (nodeParse lib · heap errno buf) (.ok r) → Releasable r.heap r.root) ↔
      (endsInSpace buf = true → Shallow lib buf) := by
  have hShort : buf.length < 2 ^ 31 := by omega
  constructor
  · intro hAll hEnds d x hRead
    obtain ⟨r, hEnding, hFinishes⟩ := hRead.finishes hShort hEnds [] (Nat.zero_le _)
    cases r with
    | ok r => exact (Ends.releasable_iff hEnding).mp (hAll [] 0 r hFinishes)
    | error e => exact hEnding.height_of_error
  · intro hShallow heap errno r hFinishes
    by_cases hCheck : endsInSpace buf = true ∧ errno = 0
    · obtain ⟨hEnds, rfl⟩ := hCheck
      obtain ⟨d, x, hRead⟩ := exists_readsTo hShort hEnds heap (Nat.zero_le _) hFinishes
      have hEnding := hRead.ends hShort hEnds heap (Nat.zero_le _) hFinishes
      exact (Ends.releasable_iff hEnding).mpr (hShallow hEnds d x hRead)
    · have hSame := hFinishes.unique (nodeParseSeq_stable lib heap errno buf 0)
        (finishes_refused hCheck heap 0)
      cases hSame
      exact releasable_none _

theorem nodeParse_releasable_emptyGroup :
    emptyGroup.length ≤ 65535 ∧ ∀ heap errno r, Finishes (nodeParse noDoubles · heap errno emptyGroup) (.ok r) →
      Releasable r.heap r.root := by
  refine ⟨by decide, (nodeParse_releasable_iff noDoubles emptyGroup (by decide)).mpr ?_⟩
  intro _ d x hRead
  have hRoot : ReadsTo noDoubles emptyGroup 0 [.nil] (.closed (.node ⟨none, .group⟩ .nil .nil) 2) :=
    ⟨_, _, .cons rfl (.nil _ _), rfl⟩
  obtain ⟨rfl, rfl⟩ := hRoot.unique hRead
  decide

/-- `[ `, then 127 times `1 `, then `a ` -/
def manySiblings : Bytes := [91, 32] ++ (List.replicate 127 [49, 32]).flatten ++ [97, 32]

theorem manySiblings_not_releasable :
    manySiblings.length ≤ 65535 ∧
      ∃ r, Finishes (nodeParse noDoubles · [] 0 manySiblings) (.ok r) ∧ ¬Releasable r.heap r.root := by
  have hParse : ((nodeParse noDoubles 1 [] 0 manySiblings).toOption.map fun r => nodeDestroy r.heap r.root) =
      some (.error (.assertFailed "the binary_tree is too deep")) := by decide +kernel
  obtain ⟨r, hr, hDestroy⟩ := Option.map_eq_some_iff.mp hParse
  have hOk : nodeParse noDoubles 1 [] 0 manySiblings = .ok r := by
    cases hRun : nodeParse noDoubles 1 [] 0 manySiblings with
    | error e =>
      rw [hRun] at hr
      cases hr
    | ok r' =>
      rw [hRun] at hr
      cases hr
      rfl
  refine ⟨by decide +kernel, r, ⟨by simp, 1, hOk⟩, ?_⟩
  rintro ⟨freed, hFreed⟩
  rw [hDestroy] at hFreed
  cases hFreed

end Utu.Stackish
