import Utu.Lib.Outcome
import Utu.Stackish.Destroy

/-!
# Building and taking apart nodes by a format

`Node_cons` and `Node_decons` are driven by a format string whose characters
take the variable arguments in turn. A format is a list here, and each of its
characters carries the argument it takes; the outputs of `Node_decons` are
collected in the order they are written, also when it fails later on.
-/

namespace Utu.Stackish
open LinkedForest
set_option autoImplicit false

variable {D : Type}

/-! ## Construction -/

/-- The characters `[ n f b s ] @ w G` of a `Node_cons` format with their arguments. -/
inductive Piece (D : Type) where
  | start
  | number (n : UInt64)
  | float (x : D)
  | blob (b : Option Bytes)
  | string (s : Option Bytes)
  | close
  | attr (name : Bytes)
  | word (name : Bytes)
  | group (node : Option Nat)
deriving DecidableEq, Repr

/-- The two local node pointers of `Node_cons`, over the memory. -/
structure Cons (D : Type) where
  heap : Heap D
  root : Option Nat
  cur : Option Nat
deriving DecidableEq, Repr

/-- The node `cur_node` points at; dereferencing NULL ends the process. -/
def deref (h : Heap D) : Option Nat → Run (Nat × Cell (NodeData D))
  | none => throw .nullPointer
  | some a =>
    match h[a]? with
    | none => throw .badPointer
    | some node => pure (a, node)

def consLeaf (c : Cons D) (value : Value D) : Cons D :=
  { c with heap := nodeCreate c.heap c.cur value }

/-- `Node_name` on a pointer that may be NULL. -/
def consName (h : Heap D) (node : Option Nat) (name : Bytes) : Run (Heap D) :=
  match node with
  | none => throw (.assertFailed "node cannot be NULL")
  | some a => pure (nodeName h a (some name))

/-- `LIST_ADD` of a finished group: its parent link is left as it is. -/
def listAdd (h : Heap D) (parent : Nat) (node : Nat) : Run (Heap D) := do
  let (_, p) ← deref h (some parent)
  let (_, g) ← deref h (some node)
  let h := h.set node { g with sibling := p.child }
  let (_, p) ← deref h (some parent)
  pure (h.set parent { p with child := some node })

/-- One character. `none` is the jump to the failure exit, taken by a NULL argument and by every
`check` under a stale `errno`. -/
def consPiece (errno : Nat) (c : Cons D) : Piece D → Run (Option (Cons D))
  | .start =>
    let heap := nodeCreate c.heap c.cur .group
    pure (some ⟨heap, c.root.or (some c.heap.length), some c.heap.length⟩)
  | .number n => pure (some (consLeaf c (.number n)))
  | .float x => pure (some (consLeaf c (.float x)))
  | .blob b => pure (if b.isSome && errno == 0 then some (consLeaf c (.blob b)) else none)
  | .string s => pure (if s.isSome && errno == 0 then some (consLeaf c (.string s)) else none)
  | .close => do
    let (_, node) ← deref c.heap c.cur
    pure (some { c with cur := node.parent })
  | .attr name => do
    if errno ≠ 0 then return none
    let (_, node) ← deref c.heap c.cur
    let heap ← consName c.heap node.child name
    pure (some { c with heap })
  | .word name => do
    if errno ≠ 0 then return none
    let heap ← consName c.heap c.cur name
    let (_, node) ← deref heap c.cur
    pure (some { c with heap, cur := node.parent })
  | .group node => do
    match node with
    | none => pure none
    | some g =>
      if errno ≠ 0 then return none
      let (cur, _) ← deref c.heap c.cur
      let heap ← listAdd c.heap cur g
      pure (some { c with heap })

def consLoop (errno : Nat) : List (Piece D) → Cons D → Run (Option Nat × Heap D)
  | [], c => if c.cur.isNone then pure (c.root, c.heap) else throw (.assertFailed "cur_node == NULL")
  | p :: rest, c => do
    match ← consPiece errno c p with
    | none => pure (none, c.heap)
    | some c => consLoop errno rest c

/-- `Node_cons`: the root, or NULL, and the memory. -/
def nodeCons (heap : Heap D) (errno : Nat) (format : List (Piece D)) : Run (Option Nat × Heap D) :=
  consLoop errno format ⟨heap, none, none⟩

/-! ### Construction on top of a memory -/

/-- The pieces that only make new nodes and name them. -/
def Piece.makesNew : Piece D → Bool
  | .attr _ | .group _ => false
  | _ => true

/-- `Node_cons` works above the memory it found: what it points at and the parents there are new. -/
structure Above (base : Heap D) (c : Cons D) : Prop where
  ext : Extends base c.heap
  cur : ∀ a, c.cur = some a → base.length ≤ a
  parent : ∀ a cell, base.length ≤ a → c.heap[a]? = some cell →
    ∀ p, cell.parent = some p → base.length ≤ p

theorem create_parent_cases {h : Heap D} {parent : Option Nat} {d : NodeData D} {a : Nat}
    {cell : Cell (NodeData D)} (hCell : (create h parent d)[a]? = some cell) :
    cell.parent = parent ∨ ∃ old, h[a]? = some old ∧ cell.parent = old.parent := by
  cases parent with
  | none =>
    simp only [create, List.getElem?_append] at hCell
    split at hCell
    · exact .inr ⟨cell, hCell, rfl⟩
    · simp only [List.getElem?_singleton] at hCell
      split at hCell
      · cases hCell
        exact .inl rfl
      · cases hCell
  | some p =>
    simp only [create, List.getElem?_append, List.length_modify] at hCell
    split at hCell
    · rw [List.getElem?_modify] at hCell
      obtain ⟨old, hOld, rfl⟩ := Option.map_eq_some_iff.mp hCell
      refine .inr ⟨old, hOld, ?_⟩
      split <;> rfl
    · simp only [List.getElem?_singleton] at hCell
      split at hCell
      · cases hCell
        exact .inl rfl
      · cases hCell

theorem Above.create {base : Heap D} {c : Cons D} (hc : Above base c) (value : Value D) :
    Above base { c with heap := nodeCreate c.heap c.cur value } where
  ext := hc.ext.create hc.cur _
  cur := hc.cur
  parent := by
    intro a cell ha hCell p hp
    rcases create_parent_cases hCell with hCur | ⟨old, hOld, hSame⟩
    · exact hc.cur p (hCur.symm.trans hp)
    · exact hc.parent a old ha hOld p (hSame.symm.trans hp)

theorem deref_some {h : Heap D} {p : Option Nat} {a : Nat} {cell : Cell (NodeData D)}
    (hr : deref h p = .ok (a, cell)) : p = some a ∧ h[a]? = some cell := by
  cases p with
  | none => cases hr
  | some b =>
    rw [deref] at hr
    split at hr
    · cases hr
    · rename_i hCell
      cases hr
      exact ⟨rfl, hCell⟩

theorem Above.up {base : Heap D} {c : Cons D} (hc : Above base c) {a : Nat}
    {cell : Cell (NodeData D)} (hDeref : deref c.heap c.cur = .ok (a, cell)) :
    Above base { c with cur := cell.parent } where
  ext := hc.ext
  cur := by
    obtain ⟨hCur, hCell⟩ := deref_some hDeref
    exact hc.parent a cell (hc.cur a hCur) hCell
  parent := hc.parent

theorem Above.name {base heap : Heap D} {c : Cons D} (hc : Above base c) {name : Bytes}
    (hName : consName c.heap c.cur name = .ok heap) : Above base { c with heap } := by
  obtain ⟨heap₀, root, cur⟩ := c
  cases cur with
  | none => cases hName
  | some a =>
    cases hName
    rw [nodeName]
    split
    · rename_i old hOld
      refine ⟨hc.ext.setData (hc.cur a rfl) _, hc.cur, fun b cell hb hCell => ?_⟩
      by_cases hSelf : b = a
      · subst hSelf
        rw [setData_self hOld] at hCell
        cases hCell
        exact hc.parent b old hb hOld
      · rw [setData_other hSelf] at hCell
        exact hc.parent b cell hb hCell
    · exact hc

theorem consPiece_above {base : Heap D} {errno : Nat} {c c' : Cons D} {p : Piece D}
    (hNew : p.makesNew = true) (hc : Above base c) (hr : consPiece errno c p = .ok (some c')) :
    Above base c' := by
  cases p with
  | start =>
    cases hr
    have hNode := hc.create (.group : Value D)
    refine ⟨hNode.ext, fun a ha => ?_, hNode.parent⟩
    cases ha
    exact hc.ext.length_le
  | number n =>
    cases hr
    exact hc.create _
  | float x =>
    cases hr
    exact hc.create _
  | blob b =>
    simp only [consPiece, pure, Except.pure, Except.ok.injEq] at hr
    split at hr
    · cases hr
      exact hc.create _
    · cases hr
  | string s =>
    simp only [consPiece, pure, Except.pure, Except.ok.injEq] at hr
    split at hr
    · cases hr
      exact hc.create _
    · cases hr
  | close =>
    obtain ⟨⟨a, node⟩, hDeref, hPure⟩ := Outcome.bind_eq_ok_iff.mp hr
    cases hPure
    exact hc.up hDeref
  | attr name => cases hNew
  | word name =>
    simp only [consPiece] at hr
    split at hr
    · cases hr
    · obtain ⟨heap, hName, hRest⟩ := Outcome.bind_eq_ok_iff.mp hr
      obtain ⟨⟨a, node⟩, hDeref, hPure⟩ := Outcome.bind_eq_ok_iff.mp hRest
      cases hPure
      exact (hc.name hName).up hDeref
  | group node => cases hNew

theorem consLoop_above {base heap : Heap D} {errno : Nat} {root : Option Nat} :
    ∀ {format : List (Piece D)} {c : Cons D}, (∀ p ∈ format, p.makesNew = true) → Above base c →
      consLoop errno format c = .ok (root, heap) → Extends base heap
  | [], c, _, hc, hr => by
    simp only [consLoop] at hr
    split at hr
    · cases hr
      exact hc.ext
    · cases hr
  | p :: rest, c, hNew, hc, hr => by
    obtain ⟨step, hStep, hr⟩ := Outcome.bind_eq_ok_iff.mp hr
    cases step with
    | none =>
      cases hr
      exact hc.ext
    | some c' =>
      exact consLoop_above (fun q hq => hNew q (List.mem_cons_of_mem p hq))
        (consPiece_above (hNew p List.mem_cons_self) hc hStep) hr

/-- A format without attributes and finished groups leaves the nodes in memory alone. -/
theorem nodeCons_extends {heap heap' : Heap D} {errno : Nat} {format : List (Piece D)}
    {root : Option Nat} (hNew : ∀ p ∈ format, p.makesNew = true)
    (hr : nodeCons heap errno format = .ok (root, heap')) : Extends heap heap' := by
  refine consLoop_above hNew ⟨Extends.refl heap, fun a ha => (by cases ha), ?_⟩ hr
  intro a cell ha hCell
  exact absurd (List.getElem?_eq_some_iff.mp hCell).1 (Nat.not_lt.mpr ha)

/-! ### Missing arguments -/

/-- The argument is not NULL. -/
def Piece.given : Piece D → Bool
  | .blob b => b.isSome
  | .string s => s.isSome
  | .group node => node.isSome
  | _ => true

theorem consPiece_given {errno : Nat} {c c' : Cons D} {p : Piece D}
    (hr : consPiece errno c p = .ok (some c')) : p.given = true := by
  cases p with
  | blob b =>
    cases b with
    | none => cases hr
    | some b => rfl
  | string s =>
    cases s with
    | none => cases hr
    | some s => rfl
  | group node =>
    cases node with
    | none => cases hr
    | some g => rfl
  | _ => rfl

/-- A node is only built when every argument is there. -/
theorem nodeCons_given {heap heap' : Heap D} {errno root : Nat} {format : List (Piece D)}
    (hr : nodeCons heap errno format = .ok (some root, heap')) : ∀ p ∈ format, p.given = true := by
  have hLoop : ∀ (format : List (Piece D)) (c : Cons D),
      consLoop errno format c = .ok (some root, heap') → ∀ p ∈ format, p.given = true := by
    intro format
    induction format with
    | nil => exact fun _ _ p hp => absurd hp List.not_mem_nil
    | cons q rest ih =>
      intro c hr p hp
      obtain ⟨step, hStep, hr⟩ := Outcome.bind_eq_ok_iff.mp hr
      cases step with
      | none => cases hr
      | some c' =>
        rcases List.mem_cons.mp hp with rfl | hp
        · exact consPiece_given hStep
        · exact ih c' hr p hp
  exact hLoop format _ hr

/-! ## Deconstruction -/

/-- The characters `[ n f s b ] @ w G .` of a `Node_decons` format. `G` insists on an output
variable that is NULL. -/
inductive Expect where
  | start
  | number
  | float
  | string
  | blob
  | close
  | attr (name : Bytes)
  | word (name : Bytes)
  | group (null : Bool)
  | skip
deriving DecidableEq, Repr

/-- What an output variable is set to: without `copy`, a string or blob is the one inside the
node. -/
inductive Bound (D : Type) where
  | number (n : UInt64)
  | float (x : D)
  | copied (s : Option Bytes)
  | shared (node : Nat)
  | group (node : Nat)
deriving DecidableEq, Repr

/-- Where a character leaves `cur_node`, or that it jumped to the failure exit. -/
inductive Decons (D : Type) where
  | next (cur : Option Nat) (bound : List (Bound D))
  | failed (bound : List (Bound D))
deriving DecidableEq, Repr

/-- `NEXT`: the last sibling is its own successor. -/
def nextNode (a : Nat) (node : Cell (NodeData D)) : Nat := node.sibling.getD a

section Decons
variable (lib : DoubleLib D) (h : Heap D) (errno : Nat) (copy : Bool)

/-- `Node_dump` writes the node to the log; what matters is that `Node_bstr` may stop. -/
def nodeDump (d : Option Nat) (followSibs : Bool) : Run Unit := do
  let _ ← nodeBstr lib h d followSibs
  pure ()

/-- `check_type` and the assignment behind it. -/
def deconsValue (a : Nat) (node : Cell (NodeData D)) (bound : List (Bound D))
    (value : Option (Bound D)) : Run (Decons D) := do
  if errno ≠ 0 then return .failed bound
  match value with
  | some b => pure (.next (some (nextNode a node)) (bound ++ [b]))
  | none =>
    nodeDump lib h (some a) false
    pure (.failed bound)

def bindString (a : Nat) (s : Option Bytes) : Bound D := if copy then .copied s else .shared a

def hasName (node : Cell (NodeData D)) (name : Bytes) : Bool :=
  match node.data.name with
  | none => false
  | some n => biseqcstr n name

/-- One character at the node `a`. The `break` of `UP` only leaves the `switch`. -/
def deconsChar (a : Nat) (node : Cell (NodeData D)) (bound : List (Bound D)) :
    Expect → Run (Decons D)
  | .start => pure (.next node.child bound)
  | .number =>
    deconsValue lib h errno a node bound
      (match node.data.value with | .number n => some (.number n) | _ => none)
  | .float =>
    -- the output is written before the type is looked at
    match node.data.value with
    | .float x =>
      pure (if errno = 0 then .next (some (nextNode a node)) (bound ++ [.float x])
        else .failed (bound ++ [.float x]))
    | _ => deconsValue lib h errno a node bound none
  | .string =>
    deconsValue lib h errno a node bound
      (match node.data.value with | .string s => some (bindString copy a s) | _ => none)
  | .blob =>
    deconsValue lib h errno a node bound
      (match node.data.value with | .blob s => some (bindString copy a s) | _ => none)
  | .close =>
    match node.parent with
    | none => pure (.next none bound)
    | some p => do
      let (p, up) ← deref h (some p)
      pure (.next (some (nextNode p up)) bound)
  | .attr name => do
    if errno ≠ 0 then return .failed bound
    if hasName node name then pure (.next (some a) bound)
    else
      nodeDump lib h (some a) true
      pure (.failed bound)
  | .word name =>
    match node.parent with
    | none => pure (.next none bound)
    | some p => do
      let (p, up) ← deref h (some p)
      if errno ≠ 0 then return .failed bound
      if hasName up name then pure (.next (some (nextNode p up)) bound)
      else
        nodeDump lib h (some p) true
        pure (.failed bound)
  | .group null =>
    pure (if null && errno == 0 then .next (some (nextNode a node)) (bound ++ [.group a])
      else .failed bound)
  | .skip => pure (.next (some (nextNode a node)) bound)

def deconsLoop : List Expect → Option Nat → List (Bound D) → Run (Bool × List (Bound D))
  | [], _, bound => pure (errno == 0, bound)
  | _ :: _, none, bound => pure (false, bound)
  | c :: rest, some a, bound => do
    let (a, node) ← deref h (some a)
    match ← deconsChar lib h errno copy a node bound c with
    | .next cur bound => deconsLoop rest cur bound
    | .failed bound => pure (false, bound)

/-- `Node_decons`: its result and the outputs it wrote. `errno` is clear afterwards. -/
def nodeDecons (root : Nat) (format : List Expect) : Run (Bool × List (Bound D)) :=
  deconsLoop lib h errno copy format (some root) []

/-! ## What success binds -/

inductive BoundKind where
  | number
  | float
  | copied
  | shared
  | group
deriving DecidableEq, Repr

def Expect.kind (copy : Bool) : Expect → Option BoundKind
  | .number => some .number
  | .float => some .float
  | .string | .blob => some (if copy then .copied else .shared)
  | .group _ => some .group
  | .start | .close | .attr _ | .word _ | .skip => none

def Bound.kind : Bound D → BoundKind
  | .number _ => .number
  | .float _ => .float
  | .copied _ => .copied
  | .shared _ => .shared
  | .group _ => .group

theorem Bound.eq_number {b : Bound D} (hb : b.kind = .number) : ∃ n, b = .number n := by
  cases b with
  | number n => exact ⟨n, rfl⟩
  | float x => cases hb
  | copied s => cases hb
  | shared a => cases hb
  | group a => cases hb

theorem Bound.eq_copied {b : Bound D} (hb : b.kind = .copied) : ∃ s, b = .copied s := by
  cases b with
  | number n => cases hb
  | float x => cases hb
  | copied s => exact ⟨s, rfl⟩
  | shared a => cases hb
  | group a => cases hb

variable {lib h errno copy}

theorem kind_bindString (a : Nat) (s : Option Bytes) :
    (bindString (D := D) copy a s).kind = if copy then .copied else .shared := by
  cases copy <;> rfl

theorem deconsValue_next {a : Nat} {node : Cell (NodeData D)} {bound bound' : List (Bound D)}
    {value : Option (Bound D)} {cur : Option Nat}
    (hr : deconsValue lib h errno a node bound value = .ok (.next cur bound')) :
    ∃ b, value = some b ∧ bound' = bound ++ [b] := by
  unfold deconsValue at hr
  split at hr
  · cases hr
  · split at hr
    · cases hr
      exact ⟨_, rfl, rfl⟩
    · obtain ⟨-, -, hr⟩ := Outcome.bind_eq_ok_iff.mp hr
      cases hr

/-- One character binds one output of its kind, or none. -/
theorem deconsChar_kind {a : Nat} {node : Cell (NodeData D)} {bound bound' : List (Bound D)}
    {c : Expect} {cur : Option Nat}
    (hr : deconsChar lib h errno copy a node bound c = .ok (.next cur bound')) :
    bound'.map Bound.kind = bound.map Bound.kind ++ (c.kind copy).toList := by
  -- the characters that only move leave the outputs as they are
  have hSame : bound' = bound → c.kind copy = none → bound'.map Bound.kind =
      bound.map Bound.kind ++ (c.kind copy).toList := by
    rintro rfl hKind
    simp [hKind]
  cases c with
  | start =>
    cases hr
    exact hSame rfl rfl
  | number =>
    obtain ⟨b, hb, rfl⟩ := deconsValue_next hr
    split at hb <;> cases hb
    simp [Bound.kind, Expect.kind]
  | float =>
    simp only [deconsChar] at hr
    split at hr
    · simp only [pure, Except.pure, Except.ok.injEq] at hr
      split at hr
      · cases hr
        simp [Bound.kind, Expect.kind]
      · cases hr
    · obtain ⟨b, hb, -⟩ := deconsValue_next hr
      cases hb
  | string =>
    obtain ⟨b, hb, rfl⟩ := deconsValue_next hr
    split at hb <;> cases hb
    simp [kind_bindString, Expect.kind]
  | blob =>
    obtain ⟨b, hb, rfl⟩ := deconsValue_next hr
    split at hb <;> cases hb
    simp [kind_bindString, Expect.kind]
  | close =>
    simp only [deconsChar] at hr
    split at hr
    · cases hr
      exact hSame rfl rfl
    · obtain ⟨up, -, hUp⟩ := Outcome.bind_eq_ok_iff.mp hr
      cases hUp
      exact hSame rfl rfl
  | attr name =>
    simp only [deconsChar] at hr
    split at hr
    · cases hr
    · split at hr
      · cases hr
        exact hSame rfl rfl
      · obtain ⟨-, -, hr⟩ := Outcome.bind_eq_ok_iff.mp hr
        cases hr
  | word name =>
    simp only [deconsChar] at hr
    split at hr
    · cases hr
      exact hSame rfl rfl
    · obtain ⟨up, -, hUp⟩ := Outcome.bind_eq_ok_iff.mp hr
      split at hUp
      · cases hUp
      · split at hUp
        · cases hUp
          exact hSame rfl rfl
        · obtain ⟨-, -, hDump⟩ := Outcome.bind_eq_ok_iff.mp hUp
          cases hDump
  | group null =>
    simp only [deconsChar, pure, Except.pure, Except.ok.injEq] at hr
    split at hr
    · cases hr
      simp [Bound.kind, Expect.kind]
    · cases hr
  | skip =>
    cases hr
    exact hSame rfl rfl

/-- Success binds one output for each character that has one, in the order of the format. -/
theorem nodeDecons_kinds {root : Nat} {format : List Expect} {bound : List (Bound D)}
    (hr : nodeDecons lib h errno copy root format = .ok (true, bound)) :
    bound.map Bound.kind = format.filterMap (Expect.kind copy) := by
  have hLoop : ∀ (format : List Expect) (cur : Option Nat) (bound bound' : List (Bound D)),
      deconsLoop lib h errno copy format cur bound = .ok (true, bound') →
      bound'.map Bound.kind = bound.map Bound.kind ++ format.filterMap (Expect.kind copy) := by
    intro format
    induction format with
    | nil =>
      intro cur bound bound' hr
      obtain ⟨-, rfl⟩ := Prod.mk.inj (Except.ok.inj hr)
      simp
    | cons c rest ih =>
      intro cur bound bound' hr
      cases cur with
      | none => cases hr
      | some a =>
        rw [deconsLoop] at hr
        obtain ⟨⟨a', node⟩, -, hr⟩ := Outcome.bind_eq_ok_iff.mp hr
        obtain ⟨step, hStep, hr⟩ := Outcome.bind_eq_ok_iff.mp hr
        cases step with
        | failed bound₁ => cases hr
        | next cur₁ bound₁ =>
          rw [ih _ _ _ hr, deconsChar_kind hStep, List.filterMap_cons]
          cases c.kind copy <;> simp
  simpa using hLoop format _ _ _ hr

end Decons

end Utu.Stackish
