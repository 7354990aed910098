import Utu.Stackish.Cursor

/-!
# `Node_decons` inverts `Node_cons`

The elements of a format are a syntax of their own, with their arguments in it.
Written forwards they are what `Node_cons` takes, written backwards what
`Node_decons` takes: new nodes go in front of the others, so that a group holds
its elements in the opposite order.
-/

namespace Utu.Stackish
open LinkedForest Outcome
set_option autoImplicit false

variable {D : Type}

inductive Leaf where
  | number (n : UInt64)
  | string (s : Bytes)
  | blob (b : Bytes)
deriving DecidableEq, Repr

/-- The end of an inner group: `]`, with the attribute that can follow it, or `w`. -/
inductive Close where
  | bracket (attr : Option Bytes)
  | word (name : Bytes)
deriving DecidableEq, Repr

/-- Elements in the order of a `Node_cons` format. -/
inductive Elems where
  | nil
  | leaf (value : Leaf) (attr : Option Bytes) (rest : Elems)
  | group (inner : Elems) (close : Close) (rest : Elems)
deriving DecidableEq, Repr

def Leaf.piece : Leaf → Piece D
  | .number n => .number n
  | .string s => .string (some s)
  | .blob b => .blob (some b)

def Leaf.expect : Leaf → Expect
  | .number _ => .number
  | .string _ => .string
  | .blob _ => .blob

def Leaf.value : Leaf → Value D
  | .number n => .number n
  | .string s => .string (some s)
  | .blob b => .blob (some b)

def Close.pieces : Close → List (Piece D)
  | .bracket attr => .close :: attr.toList.map .attr
  | .word name => [.word name]

/-- The attribute, which comes first when the format is reversed. -/
def Close.attrs : Close → List Expect
  | .bracket attr => attr.toList.map .attr
  | .word _ => []

def Close.expect : Close → Expect
  | .bracket _ => .close
  | .word name => .word name

def Close.name : Close → Option Bytes
  | .bracket attr => attr
  | .word name => some name

namespace Elems

def format : Elems → List (Piece D)
  | .nil => []
  | .leaf value attr rest => value.piece :: (attr.toList.map .attr ++ rest.format)
  | .group inner close rest => .start :: (inner.format ++ (close.pieces ++ rest.format))

/-- The elements of every group in reverse order, each attribute before its element. -/
def rev : Elems → List Expect
  | .nil => []
  | .leaf value attr rest => rest.rev ++ (attr.toList.map .attr ++ [value.expect])
  | .group inner close rest => rest.rev ++ (close.attrs ++ .start :: (inner.rev ++ [close.expect]))

/-- The arguments that have an output variable, in the order of the reversed format. -/
def values : Elems → List Leaf
  | .nil => []
  | .leaf value _ rest => rest.values ++ [value]
  | .group inner _ rest => rest.values ++ inner.values

/-- Every group has an element. -/
def Full : Elems → Prop
  | .nil => True
  | .leaf _ _ rest => rest.Full
  | .group inner _ rest => inner ≠ .nil ∧ inner.Full ∧ rest.Full

/-- The children `k'` are these elements, the last one first, in front of the children `k`. -/
def Built : Elems → Located (NodeData D) → Located (NodeData D) → Prop
  | .nil, k, k' => k' = k
  | .leaf value attr rest, k, k' => ∃ a, rest.Built (.node (a, ⟨attr, value.value⟩) .nil k) k'
  | .group inner close rest, k, k' =>
    ∃ a kids, inner.Built .nil kids ∧ rest.Built (.node (a, ⟨close.name, .group⟩) kids k) k'

end Elems

/-! ## Construction -/

section Build
variable {c : Cons D} {sp rest : Spine (NodeData D)} {a : Nat × NodeData D} {k : Located (NodeData D)}

/-- The open groups of `Node_cons` are a spine of its memory. -/
structure Building (c : Cons D) (sp : Spine (NodeData D)) : Prop where
  holds : sp.Holds c.heap
  cur : c.cur = sp.top
  root : c.root = sp.bottom

theorem Building.start (hc : Building c sp) :
    ∃ c', consPiece 0 c .start = .ok (some c') ∧ Building c' (((c.heap.length, ⟨none, .group⟩), .nil) :: sp) := by
  refine ⟨_, rfl, ?_, rfl, ?_⟩
  · have hOpen := hc.holds.create_open ⟨none, .group⟩
    rw [← hc.cur] at hOpen
    exact hOpen
  · cases sp with
    | nil =>
      rw [hc.root]
      rfl
    | cons frame rest =>
      obtain ⟨b, -, hBottom⟩ := Spine.bottom_mem frame rest
      simp [hc.root, Spine.bottom, hBottom]

theorem Building.leaf (hc : Building c ((a, k) :: rest)) (value : Leaf) :
    ∃ c' b, consPiece 0 c (value.piece : Piece D) = .ok (some c') ∧
      Building c' ((a, .node (b, ⟨none, value.value⟩) .nil k) :: rest) := by
  have hLeaf : Building (consLeaf c value.value)
      ((a, .node (c.heap.length, ⟨none, value.value⟩) .nil k) :: rest) := by
    refine ⟨?_, hc.cur, ?_⟩
    · have hNew := hc.holds.create_leaf ⟨none, value.value⟩
      rw [consLeaf, hc.cur]
      exact hNew
    · rw [Spine.bottom_kids a _ k rest]
      exact hc.root
  exact ⟨_, _, by cases value <;> rfl, hLeaf⟩

theorem nodeName_cell {h : Heap D} {b : Nat} {cell : Cell (NodeData D)} (hCell : h[b]? = some cell)
    (name : Option Bytes) : nodeName h b name = setData h b { cell.data with name := name } := by
  rw [nodeName, hCell]

/-- `@` names the newest child. -/
theorem Building.attr {b : Nat × NodeData D} {kids sib : Located (NodeData D)}
    (hc : Building c ((a, .node b kids sib) :: rest)) (name : Bytes) :
    ∃ c', consPiece 0 c (.attr name) = .ok (some c') ∧
      Building c' ((a, .node (b.1, { b.2 with name := some name }) kids sib) :: rest) := by
  have hCell := hc.holds.cell
  have hKid := hc.holds.stored.2.1.1
  have hDeref : deref c.heap c.cur = .ok (a.1, ⟨a.2, Spine.top rest, Spine.kids rest, some b.1⟩) := by
    rw [hc.cur, Spine.top, deref, hCell]
    rfl
  refine ⟨{ c with heap := setData c.heap b.1 { b.2 with name := some name } }, ?_, ?_, hc.cur, ?_⟩
  · rw [consPiece, if_neg (by simp), bind_of_ok hDeref]
    dsimp only
    rw [consName, nodeName_cell hKid]
    rfl
  · exact hc.holds.setChild _
  · rw [Spine.bottom_kids a _ (.node b kids sib) rest]
    exact hc.root

theorem Building.attrs {b : Nat} {value : Value D} {kids sib : Located (NodeData D)}
    (hc : Building c ((a, .node (b, ⟨none, value⟩) kids sib) :: rest)) (attr : Option Bytes)
    (more : List (Piece D)) :
    ∃ c', consLoop 0 (attr.toList.map .attr ++ more) c = consLoop 0 more c' ∧
      Building c' ((a, .node (b, ⟨attr, value⟩) kids sib) :: rest) := by
  cases attr with
  | none => exact ⟨c, rfl, hc⟩
  | some name =>
    obtain ⟨c', hPiece, hNamed⟩ := hc.attr name
    refine ⟨c', ?_, hNamed⟩
    change consLoop 0 (.attr name :: more) c = _
    rw [consLoop, bind_of_ok hPiece]

theorem Building.close {b : Nat × NodeData D} {l : Located (NodeData D)} (hc : Building c ((b, k) :: (a, l) :: rest)) :
    ∃ c', consPiece 0 c .close = .ok (some c') ∧ Building c' ((a, .node b k l) :: rest) := by
  have hCell := hc.holds.cell
  have hDeref : deref c.heap c.cur = .ok (b.1, ⟨b.2, some a.1, l.ptr, k.ptr⟩) := by
    rw [hc.cur, Spine.top, deref, hCell]
    rfl
  refine ⟨{ c with cur := some a.1 }, ?_, hc.holds.close, rfl, ?_⟩
  · rw [consPiece, bind_of_ok hDeref]
    rfl
  · rw [Spine.bottom_kids a _ l rest]
    exact hc.root

theorem Building.name (hc : Building c ((a, k) :: rest)) (name : Bytes) :
    ∃ heap, consName c.heap c.cur name = .ok heap ∧
      Building { c with heap := heap } (((a.1, { a.2 with name := some name }), k) :: rest) := by
  have hCell := hc.holds.cell
  refine ⟨setData c.heap a.1 { a.2 with name := some name }, ?_, hc.holds.setTop _, hc.cur, ?_⟩
  · rw [hc.cur, Spine.top, consName, nodeName_cell hCell]
    rfl
  · have hRoot := hc.root
    cases rest <;> exact hRoot

theorem Building.word {b : Nat × NodeData D} {l : Located (NodeData D)} (hc : Building c ((b, k) :: (a, l) :: rest))
    (name : Bytes) :
    ∃ c', consPiece 0 c (.word name) = .ok (some c') ∧
      Building c' ((a, .node (b.1, { b.2 with name := some name }) k l) :: rest) := by
  obtain ⟨heap, hName, hNamed⟩ := hc.name name
  obtain ⟨c', hClose, hClosed⟩ := hNamed.close
  refine ⟨c', ?_, hClosed⟩
  rw [consPiece, if_neg (by simp), bind_of_ok hName]
  exact hClose

theorem Building.closes {b : Nat} {l : Located (NodeData D)}
    (hc : Building c (((b, ⟨none, .group⟩), k) :: (a, l) :: rest)) (close : Close) (more : List (Piece D)) :
    ∃ c', consLoop 0 (close.pieces ++ more) c = consLoop 0 more c' ∧
      Building c' ((a, .node (b, ⟨close.name, .group⟩) k l) :: rest) := by
  cases close with
  | bracket attr =>
    obtain ⟨c₁, hClose, hClosed⟩ := hc.close
    obtain ⟨c', hAttrs, hNamed⟩ := hClosed.attrs attr more
    refine ⟨c', ?_, hNamed⟩
    change consLoop 0 (.close :: (attr.toList.map .attr ++ more)) c = _
    rw [consLoop, bind_of_ok hClose]
    exact hAttrs
  | word name =>
    obtain ⟨c', hWord, hClosed⟩ := hc.word name
    refine ⟨c', ?_, hClosed⟩
    change consLoop 0 (.word name :: more) c = _
    rw [consLoop, bind_of_ok hWord]

/-- The elements of a format become the newest children of the open group. -/
theorem Building.elems (hc : Building c ((a, k) :: rest)) (e : Elems) (more : List (Piece D)) :
    ∃ c' k', consLoop 0 (e.format ++ more) c = consLoop 0 more c' ∧ Building c' ((a, k') :: rest) ∧
      e.Built k k' := by
  induction e generalizing c a k rest more with
  | nil => exact ⟨c, k, rfl, hc, rfl⟩
  | leaf value attr elems ih =>
    obtain ⟨c₁, b, hPiece, hLeaf⟩ := hc.leaf value
    obtain ⟨c₂, hAttrs, hNamed⟩ := hLeaf.attrs attr (elems.format ++ more)
    obtain ⟨c', k', hElems, hBuilding, hBuilt⟩ := ih hNamed more
    refine ⟨c', k', ?_, hBuilding, b, hBuilt⟩
    rw [Elems.format, List.cons_append, List.append_assoc, consLoop, bind_of_ok hPiece]
    exact hAttrs.trans hElems
  | group inner close elems ihInner ihElems =>
    obtain ⟨c₁, hStart, hOpen⟩ := hc.start
    obtain ⟨c₂, kids, hInner, hKids, hInnerBuilt⟩ := ihInner hOpen (close.pieces ++ (elems.format ++ more))
    obtain ⟨c₃, hClose, hClosed⟩ := hKids.closes close (elems.format ++ more)
    obtain ⟨c', k', hElems, hBuilding, hBuilt⟩ := ihElems hClosed more
    refine ⟨c', k', ?_, hBuilding, _, kids, hInnerBuilt, hBuilt⟩
    rw [Elems.format, List.cons_append, List.append_assoc, List.append_assoc, consLoop, bind_of_ok hStart]
    exact hInner.trans (hClose.trans hElems)

/-- The last character of a format: `]`, or `w` with its argument. -/
def rootPiece : Option Bytes → Piece D
  | none => .close
  | some name => .word name

theorem Building.finish {b : Nat} (hc : Building c [((b, ⟨none, .group⟩), k)]) (word : Option Bytes) :
    ∃ heap, consLoop 0 [rootPiece word] c = .ok (some b, heap) ∧
      Stored heap none (.node (b, ⟨word, .group⟩) k .nil) := by
  have hUp : ∀ {c : Cons D} {d : NodeData D}, Building c [((b, d), k)] →
      deref c.heap c.cur = .ok (b, ⟨d, none, none, k.ptr⟩) ∧ c.root = some b ∧
        Stored c.heap none (.node (b, d) k .nil) := by
    intro c d hc
    have hCell := hc.holds.cell
    refine ⟨?_, hc.root, hCell, hc.holds.stored.2.1, trivial⟩
    rw [hc.cur, Spine.top, deref, hCell]
    rfl
  cases word with
  | none =>
    obtain ⟨hDeref, hRoot, hStored⟩ := hUp hc
    refine ⟨c.heap, ?_, hStored⟩
    rw [rootPiece, consLoop, consPiece, bind_of_ok hDeref, ← hRoot]
    rfl
  | some name =>
    obtain ⟨heap, hName, hNamed⟩ := hc.name name
    obtain ⟨hDeref, hRoot, hStored⟩ := hUp hNamed
    refine ⟨heap, ?_, hStored⟩
    rw [rootPiece, consLoop, consPiece, if_neg (by simp), bind_of_ok hName, bind_of_ok hDeref, ← hRoot]
    rfl

/-- What `Node_cons` makes of a format with one root. -/
theorem nodeCons_built (heap : Heap D) (e : Elems) (word : Option Bytes) :
    ∃ root kids heap', nodeCons heap 0 (.start :: (e.format ++ [rootPiece word])) = .ok (some root, heap') ∧
      Stored heap' none (.node (root, ⟨word, .group⟩) kids .nil) ∧
      (Forest.node (root, (⟨word, .group⟩ : NodeData D)) kids .nil).addrs.Nodup ∧ e.Built .nil kids := by
  have hNone : Building (⟨heap, none, none⟩ : Cons D) [] := ⟨.nil _, rfl, rfl⟩
  obtain ⟨c₁, hStart, hOpen⟩ := hNone.start
  obtain ⟨c₂, kids, hElems, hKids, hBuilt⟩ := hOpen.elems e [rootPiece word]
  obtain ⟨heap', hFinish, hStored⟩ := hKids.finish word
  refine ⟨heap.length, kids, heap', ?_, hStored, hKids.holds.nodup, hBuilt⟩
  rw [nodeCons, consLoop, bind_of_ok hStart]
  exact hElems.trans hFinish

end Build

/-! ## Deconstruction -/

section Unbuild
variable {h : Heap D} {copy : Bool} {outer : List (Located (NodeData D))}

/-- An output variable is set to the argument. -/
def Stores (h : Heap D) : Bound D → Leaf → Prop
  | .number n, .number m => n = m
  | .copied s, .string t => s = some t
  | .copied s, .blob t => s = some t
  | .shared a, .string t => ∃ cell, h[a]? = some cell ∧ cell.data.value = .string (some t)
  | .shared a, .blob t => ∃ cell, h[a]? = some cell ∧ cell.data.value = .blob (some t)
  | _, _ => False

theorem Elems.Built.stored {e : Elems} {k k' : Located (NodeData D)} (hBuilt : e.Built k k') {par : Option Nat}
    (hk' : Stored h par k') : Stored h par k := by
  induction e generalizing k with
  | nil =>
    cases hBuilt
    exact hk'
  | leaf value attr rest ih =>
    obtain ⟨a, hRest⟩ := hBuilt
    exact (ih hRest).2.2
  | group inner close rest _ ih =>
    obtain ⟨a, kids, -, hRest⟩ := hBuilt
    exact (ih hRest).2.2

theorem accepts_cons {a : Nat × NodeData D} {c s : Located (NodeData D)} {ch : Expect} {b : List (Bound D)}
    (hReads : Cursor.reads copy ⟨.node a c s, outer⟩ ch = some b) (more : List Expect) :
    Cursor.accepts copy (ch :: more) ⟨.node a c s, outer⟩ =
      (Cursor.accepts copy more (Cursor.slide ⟨.node a c s, outer⟩ ch)).map (b ++ ·) := by
  simp only [Cursor.accepts, hReads]
  cases Cursor.accepts copy more (Cursor.slide ⟨.node a c s, outer⟩ ch) <;> rfl

theorem accepts_attrs (a : Nat) (attr : Option Bytes) (value : Value D) (c s : Located (NodeData D))
    (more : List Expect) :
    Cursor.accepts copy (attr.toList.map .attr ++ more) ⟨.node (a, ⟨attr, value⟩) c s, outer⟩ =
      Cursor.accepts copy more ⟨.node (a, ⟨attr, value⟩) c s, outer⟩ := by
  cases attr with
  | none => rfl
  | some name =>
    have hReads : Cursor.reads copy ⟨.node (a, ⟨some name, value⟩) c s, outer⟩ (.attr name) = some [] := by
      simp [Cursor.reads, headNamed]
    change Cursor.accepts copy (.attr name :: more) _ = _
    rw [accepts_cons hReads]
    exact Option.map_id_apply

theorem accepts_leaf (copy : Bool) (outer : List (Located (NodeData D))) {par : Option Nat} {a : Nat}
    {attr : Option Bytes} {value : Leaf} {s : Located (NodeData D)}
    (hStored : Stored h par (.node (a, ⟨attr, value.value⟩) .nil s)) :
    ∃ b, Stores h b value ∧ ∀ more,
      Cursor.accepts copy (value.expect :: more) ⟨.node (a, ⟨attr, value.value⟩) .nil s, outer⟩ =
        (Cursor.accepts copy more ⟨stay (.node (a, ⟨attr, value.value⟩) .nil s), outer⟩).map ([b] ++ ·) := by
  cases value with
  | number n => exact ⟨.number n, rfl, fun more => accepts_cons rfl more⟩
  | string t =>
    refine ⟨bindString copy a (some t), ?_, fun more => accepts_cons rfl more⟩
    cases copy with
    | true => rfl
    | false => exact ⟨_, hStored.1, rfl⟩
  | blob t =>
    refine ⟨bindString copy a (some t), ?_, fun more => accepts_cons rfl more⟩
    cases copy with
    | true => rfl
    | false => exact ⟨_, hStored.1, rfl⟩

theorem stay_ne_nil (a : Nat × NodeData D) (c s : Located (NodeData D)) : stay (.node a c s) ≠ .nil := by
  cases s <;> simp [stay]

theorem stay_eq {a : Nat × NodeData D} {c s : Located (NodeData D)} (hs : s ≠ .nil) : stay (.node a c s) = s := by
  cases s with
  | nil => exact absurd rfl hs
  | node b c' s' => rfl

theorem accepts_close {a : Nat} (close : Close) {c s f : Located (NodeData D)} (hf : f ≠ .nil) (more : List Expect) :
    Cursor.accepts copy (close.expect :: more) ⟨f, .node (a, ⟨close.name, .group⟩) c s :: outer⟩ =
      Cursor.accepts copy more ⟨stay (.node (a, ⟨close.name, .group⟩) c s), outer⟩ := by
  cases f with
  | nil => exact absurd rfl hf
  | node b c' s' =>
    have hReads : Cursor.reads copy ⟨.node b c' s', .node (a, ⟨close.name, .group⟩) c s :: outer⟩ close.expect =
        some [] := by
      cases close with
      | bracket attr => rfl
      | word name => simp [Close.expect, Close.name, Cursor.reads, headNamed]
    rw [accepts_cons hReads]
    cases close <;> exact Option.map_id_apply

theorem accepts_closeAttrs (a : Nat) (close : Close) (c s : Located (NodeData D)) (more : List Expect) :
    Cursor.accepts copy (close.attrs ++ more) ⟨.node (a, ⟨close.name, .group⟩) c s, outer⟩ =
      Cursor.accepts copy more ⟨.node (a, ⟨close.name, .group⟩) c s, outer⟩ := by
  cases close with
  | bracket attr => exact accepts_attrs a attr .group c s more
  | word name => rfl

/-- The elements are taken off in the order they lie in; the cursor ends on what lies behind them, or on
the last one. -/
theorem accepts_rev (copy : Bool) {e : Elems} (hFull : e.Full) {k k' : Located (NodeData D)} (hBuilt : e.Built k k')
    {par : Option Nat} (hk' : Stored h par k') (outer : List (Located (NodeData D))) :
    ∃ bound f, List.Forall₂ (Stores h) bound e.values ∧ (k ≠ .nil → f = k) ∧ (k ≠ .nil ∨ e ≠ .nil → f ≠ .nil) ∧
      ∀ more, Cursor.accepts copy (e.rev ++ more) ⟨k', outer⟩ =
        (Cursor.accepts copy more ⟨f, outer⟩).map (bound ++ ·) := by
  induction e generalizing k k' par outer with
  | nil =>
    cases hBuilt
    refine ⟨[], k, .nil, fun _ => rfl, fun hk => hk.resolve_right (by simp), fun more => ?_⟩
    exact Option.map_id_apply.symm
  | leaf value attr rest ih =>
    obtain ⟨a, hRest⟩ := hBuilt
    obtain ⟨bound, f, hBound, hf, -, hAccepts⟩ := ih hFull hRest hk' outer
    obtain rfl := hf (by simp)
    obtain ⟨b, hb, hLeaf⟩ := accepts_leaf copy outer (hRest.stored hk')
    refine ⟨bound ++ [b], stay (.node (a, ⟨attr, value.value⟩) .nil k), ?_, stay_eq, fun _ => stay_ne_nil _ _ _, ?_⟩
    · exact List.rel_append hBound (.cons hb .nil)
    · intro more
      rw [Elems.rev, List.append_assoc, List.append_assoc, hAccepts, accepts_attrs, List.singleton_append, hLeaf,
        Option.map_map]
      congr 1
      funext out
      simp
  | group inner close rest ihInner ihRest =>
    obtain ⟨hInner, hInnerFull, hRestFull⟩ := hFull
    obtain ⟨a, kids, hKids, hRest⟩ := hBuilt
    obtain ⟨bound, f, hBound, hf, -, hAccepts⟩ := ihRest hRestFull hRest hk' outer
    obtain rfl := hf (by simp)
    have hGroup := hRest.stored hk'
    obtain ⟨bound', f', hBound', -, hf', hAccepts'⟩ := ihInner hInnerFull hKids hGroup.2.1
      (.node (a, ⟨close.name, .group⟩) kids k :: outer)
    refine ⟨bound ++ bound', stay (.node (a, ⟨close.name, .group⟩) kids k), ?_, stay_eq,
      fun _ => stay_ne_nil _ _ _, ?_⟩
    · exact List.rel_append hBound hBound'
    · intro more
      have hStart : Cursor.reads copy ⟨.node (a, ⟨close.name, .group⟩) kids k, outer⟩ .start = some [] := rfl
      rw [Elems.rev, List.append_assoc, List.append_assoc, hAccepts, accepts_closeAttrs, List.cons_append,
        accepts_cons hStart, List.append_assoc]
      change ((Cursor.accepts copy _ ⟨kids, .node (a, ⟨close.name, .group⟩) kids k :: outer⟩).map _).map _ = _
      rw [hAccepts', List.singleton_append, accepts_close close (hf' (.inr hInner)), Option.map_map, Option.map_map]
      congr 1
      funext out
      simp

/-- The last character of a reversed format. -/
def rootExpect : Option Bytes → Expect
  | none => .close
  | some name => .word name

/-- `Node_decons` with the reversed format gets out what is stored. -/
theorem nodeDecons_built (lib : DoubleLib D) (copy : Bool) {e : Elems} (hNonempty : e ≠ .nil) (hFull : e.Full)
    {root : Nat} {word : Option Bytes} {kids : Located (NodeData D)}
    (hStored : Stored h none (.node (root, ⟨word, .group⟩) kids .nil)) (hBuilt : e.Built .nil kids) :
    ∃ bound, nodeDecons lib h 0 copy root (.start :: (e.rev ++ [rootExpect word])) = .ok (true, bound) ∧
      List.Forall₂ (Stores h) bound e.values := by
  obtain ⟨bound, f, hBound, -, hf, hAccepts⟩ := accepts_rev copy hFull hBuilt hStored.2.1
    [.node (root, ⟨word, .group⟩) kids .nil]
  refine ⟨bound, ?_, hBound⟩
  rw [nodeDecons_true_iff lib copy hStored]
  refine ⟨rfl, ?_⟩
  have hStart : Cursor.reads copy ⟨.node (root, ⟨word, .group⟩) kids .nil, []⟩ .start = some [] := rfl
  have hEnd : Cursor.accepts copy [rootExpect word] ⟨f, [.node (root, ⟨word, .group⟩) kids .nil]⟩ = some [] := by
    cases word with
    | none => exact accepts_close (.bracket none) (hf (.inr hNonempty)) []
    | some name => exact accepts_close (.word name) (hf (.inr hNonempty)) []
  rw [accepts_cons hStart]
  change (Cursor.accepts copy _ ⟨kids, [.node (root, ⟨word, .group⟩) kids .nil]⟩).map _ = _
  rw [hAccepts, hEnd]
  simp

/-- `Node_decons` with the reversed format gets out what `Node_cons` was given. -/
theorem nodeDecons_nodeCons (lib : DoubleLib D) (heap : Heap D) (copy : Bool) {e : Elems} (hNonempty : e ≠ .nil)
    (hFull : e.Full) (word : Option Bytes) :
    ∃ root heap' bound,
      nodeCons heap 0 (.start :: (e.format ++ [rootPiece word])) = .ok (some root, heap') ∧
      nodeDecons lib heap' 0 copy root (.start :: (e.rev ++ [rootExpect word])) = .ok (true, bound) ∧
      List.Forall₂ (Stores heap') bound e.values := by
  obtain ⟨root, kids, heap', hCons, hStored, -, hBuilt⟩ := nodeCons_built heap e word
  obtain ⟨bound, hDecons, hBound⟩ := nodeDecons_built lib copy hNonempty hFull hStored hBuilt
  exact ⟨root, heap', bound, hCons, hDecons, hBound⟩

/-- `[n@[s]@[bww` and, reversed, `[[bw@[s]@nw` -/
theorem nodeDecons_nodeCons_nested :
    let e : Elems := .leaf (.number 7) (some [97])
      (.group (.leaf (.string [98]) none .nil) (.bracket (some [99]))
        (.group (.leaf (.blob [100]) none .nil) (.word [101]) .nil))
    e.rev = [.start, .blob, .word [101], .attr [99], .start, .string, .close, .attr [97], .number] ∧
      ∃ root heap' bound,
        nodeCons ([] : Heap Unit) 0 (.start :: (e.format ++ [rootPiece (some [102])])) = .ok (some root, heap') ∧
        nodeDecons noDoubles heap' 0 true root (.start :: (e.rev ++ [rootExpect (some [102])])) = .ok (true, bound) ∧
        List.Forall₂ (Stores heap') bound [.blob [100], .string [98], .number 7] := by
  intro e
  have hFull : e.Full := by simp [e, Elems.Full]
  exact ⟨rfl, nodeDecons_nodeCons noDoubles [] true (by simp [e]) hFull (some [102])⟩

end Unbuild

end Utu.Stackish
