import Utu.Lib.ChildLists
import Utu.Stackish.Construct
import Utu.Stackish.Termination

/-!
# Links between nodes

The calls that build trees, in any order. Every one of them keeps parent and
child links together as long as the node it adds has no parent yet, with two
exceptions: `Node_cons` does not set the parent of a finished group, and
`Node_add_sib` enters its node in no list of children.
-/

namespace Utu.Stackish
open LinkedForest Outcome
set_option autoImplicit false

variable {D : Type}

/-! ## The calls -/

/-- `Node_new_number` and the other four -/
def nodeNew (h : Heap D) (parent : Option Nat) (value : Value D) : Run (Heap D) := do
  if parent.isSome then
    let _ ← deref h parent
  pure (nodeCreate h parent value)

def nodeAddChild (h : Heap D) (parent child : Nat) : Run (Heap D) := do
  let h ← listAdd h parent child
  let (_, c) ← deref h (some child)
  pure (h.set child { c with parent := some parent })

/-- `LIST_ADD` assigns to its list argument, which is the local variable `sib1` here: when the parent
is copied, `sib1` is `sib2`. -/
def nodeAddSib (h : Heap D) (sib1 sib2 : Nat) : Run (Heap D) := do
  let (_, node) ← deref h (some sib2)
  let h := h.set sib2 { node with sibling := some sib1 }
  let sib1 := sib2
  let (_, source) ← deref h (some sib1)
  let (_, node) ← deref h (some sib2)
  pure (h.set sib2 { node with parent := source.parent })

inductive TreeCall (D : Type) where
  | new (parent : Option Nat) (value : Value D)
  | addChild (parent child : Nat)
  | addSib (sib1 sib2 : Nat)
  | cons (errno : Nat) (format : List (Piece D))
  | parse (errno : Nat) (buf : Bytes)

/-- The nodes, and what was added next to a sibling with a parent: the parent and the node. -/
structure TreeState (D : Type) where
  heap : Heap D
  beside : List (Nat × Nat)

/-- A call that returns. -/
inductive TreeStep (lib : DoubleLib D) (s : TreeState D) : TreeCall D → TreeState D → Prop
  | new {parent : Option Nat} {value : Value D} {heap : Heap D}
      (hRun : nodeNew s.heap parent value = .ok heap) : TreeStep lib s (.new parent value) ⟨heap, s.beside⟩
  | addChild {parent child : Nat} {heap : Heap D} (hRun : nodeAddChild s.heap parent child = .ok heap) :
      TreeStep lib s (.addChild parent child) ⟨heap, s.beside⟩
  | addSib {sib1 sib2 : Nat} {cell : Cell (NodeData D)} {heap : Heap D} (hCell : s.heap[sib1]? = some cell)
      (hRun : nodeAddSib s.heap sib1 sib2 = .ok heap) :
      TreeStep lib s (.addSib sib1 sib2) ⟨heap, (cell.parent.map (·, sib2)).toList ++ s.beside⟩
  | cons {errno : Nat} {format : List (Piece D)} {root : Option Nat} {heap : Heap D}
      (hRun : nodeCons s.heap errno format = .ok (root, heap)) :
      TreeStep lib s (.cons errno format) ⟨heap, s.beside⟩
  | parse {errno : Nat} {buf : Bytes} {r : Parsed D}
      (hRun : Finishes (nodeParse lib · s.heap errno buf) (.ok r)) :
      TreeStep lib s (.parse errno buf) ⟨r.heap, s.beside⟩

/-- The node is the root of a tree. -/
def Unattached (h : Heap D) (a : Nat) : Prop := ∀ cell, h[a]? = some cell → cell.parent = none

/-- What is added has no parent, and neither has the node it is added to as a sibling; no format holds a
finished group. -/
def TreeCall.Clean (h : Heap D) : TreeCall D → Prop
  | .new _ _ | .parse _ _ => True
  | .addChild _ child => Unattached h child
  | .addSib sib1 sib2 => Unattached h sib1 ∧ Unattached h sib2
  | .cons _ format => ∀ node, Piece.group node ∉ format

/-- The states after calls that return and are clean. -/
inductive CleanRun (lib : DoubleLib D) : TreeState D → Prop
  | start : CleanRun lib ⟨[], []⟩
  | step {s s' : TreeState D} {call : TreeCall D} (hRun : CleanRun lib s) (hClean : call.Clean s.heap)
      (hStep : TreeStep lib s call s') : CleanRun lib s'

structure LinksHold (s : TreeState D) : Prop where
  child : ∀ p c cell, ChildOf s.heap p c → s.heap[c]? = some cell → cell.parent = some p
  beside : ∀ x ∈ s.beside, ChildOf s.heap x.1 x.2
  root : ∀ c cell, s.heap[c]? = some cell → (∀ p, ¬ChildOf s.heap p c) → cell.parent = none

theorem linksHold_of_wellLinked {heap : Heap D} (hh : WellLinked heap) : LinksHold ⟨heap, []⟩ where
  child := fun p c cell hChild hCell => (hh.parent hCell).mpr hChild
  beside := by simp
  root := by
    intro c cell hCell hNone
    cases hParent : cell.parent with
    | none => rfl
    | some p => exact absurd ((hh.parent hCell).mp hParent) (hNone p)

/-! ## One call -/

section Calls
variable {h h' : Heap D}

theorem getElem?_of_deref {p : Option Nat} {r : Nat × Cell (NodeData D)} (hr : deref h p = .ok r) :
    p = some r.1 ∧ h[r.1]? = some r.2 := deref_some hr

theorem deref_eq {a : Nat} {cell : Cell (NodeData D)} (hCell : h[a]? = some cell) :
    deref h (some a) = .ok (a, cell) := by
  rw [deref, hCell]
  rfl

theorem deref_lt {p : Option Nat} {r : Nat × Cell (NodeData D)} (hr : deref h p = .ok r) :
    ∀ a, p = some a → a < h.length := by
  intro a ha
  obtain ⟨hp, hCell⟩ := getElem?_of_deref hr
  rw [ha] at hp
  cases hp
  exact (List.getElem?_eq_some_iff.mp hCell).1

theorem nodeNew_wellLinked (hh : WellLinked h) {parent : Option Nat} {value : Value D}
    (hRun : nodeNew h parent value = .ok h') : WellLinked h' := by
  cases parent with
  | none =>
    cases hRun
    exact hh.create (by simp) _
  | some p =>
    obtain ⟨r, hr, hRest⟩ := bind_eq_ok_iff.mp hRun
    cases hRest
    exact hh.create (deref_lt hr) _

theorem set_eq_modify {a : Nat} {cell : Cell (NodeData D)} (hCell : h[a]? = some cell)
    (f : Cell (NodeData D) → Cell (NodeData D)) : h.set a (f cell) = h.modify a f := by
  obtain ⟨hLt, rfl⟩ := List.getElem?_eq_some_iff.mp hCell
  apply List.ext_getElem?
  intro x
  rw [List.getElem?_set, List.getElem?_modify]
  by_cases hx : a = x
  · subst hx
    simp [hLt]
  · simp [hx]

theorem exists_modify {a : Nat} {cell : Cell (NodeData D)} (hCell : h[a]? = some cell) (b : Nat)
    (f : Cell (NodeData D) → Cell (NodeData D)) : ∃ cell', (h.modify b f)[a]? = some cell' := by
  rw [List.getElem?_modify, hCell]
  exact ⟨_, rfl⟩

theorem nodeAddChild_eq {p c : Nat} {pc cc : Cell (NodeData D)} (hp : h[p]? = some pc) (hc : h[c]? = some cc) :
    nodeAddChild h p c = .ok (attach h p c) := by
  let sib : Cell (NodeData D) → Cell (NodeData D) := fun cell => { cell with sibling := pc.child }
  let kid : Cell (NodeData D) → Cell (NodeData D) := fun cell => { cell with child := some c }
  let par : Cell (NodeData D) → Cell (NodeData D) := fun cell => { cell with parent := some p }
  obtain ⟨pc₁, hp₁⟩ := exists_modify hp c sib
  obtain ⟨cc₁, hc₁⟩ := exists_modify hc c sib
  obtain ⟨cc₂, hc₂⟩ := exists_modify hc₁ p kid
  have hList : listAdd h p c = .ok ((h.modify c sib).modify p kid) := by
    rw [listAdd, bind_of_ok (deref_eq hp)]
    dsimp only
    rw [bind_of_ok (deref_eq hc)]
    dsimp only
    rw [show h.set c { cc with sibling := pc.child } = h.modify c sib from set_eq_modify hc sib,
      bind_of_ok (deref_eq hp₁)]
    dsimp only
    rw [show (h.modify c sib).set p { pc₁ with child := some c } = (h.modify c sib).modify p kid from
      set_eq_modify hp₁ kid]
    rfl
  rw [nodeAddChild, bind_of_ok hList, bind_of_ok (deref_eq hc₂)]
  dsimp only
  rw [show ((h.modify c sib).modify p kid).set c { cc₂ with parent := some p } =
    ((h.modify c sib).modify p kid).modify c par from set_eq_modify hc₂ par]
  rw [attach, hp]
  rfl

theorem nodeAddSib_eq {a c : Nat} {cc : Cell (NodeData D)} (hc : h[c]? = some cc) :
    nodeAddSib h a c = .ok (setSibling h c a) := by
  have hSet : h.set c { cc with sibling := some a } = setSibling h c a :=
    set_eq_modify hc fun cell => { cell with sibling := some a }
  obtain ⟨cc₁, hc₁⟩ : ∃ cc₁, (setSibling h c a)[c]? = some cc₁ := exists_modify hc c _
  have hSame : (setSibling h c a).set c { cc₁ with parent := cc₁.parent } = setSibling h c a := by
    obtain ⟨hLt, hGet⟩ := List.getElem?_eq_some_iff.mp hc₁
    have hSelf : (setSibling h c a).set c cc₁ = setSibling h c a := by
      rw [← hGet]
      exact List.set_getElem_self hLt
    exact hSelf
  rw [nodeAddSib, bind_of_ok (deref_eq hc)]
  dsimp only
  rw [hSet, bind_of_ok (deref_eq hc₁)]
  dsimp only
  rw [bind_of_ok (deref_eq hc₁)]
  exact congrArg Except.ok hSame

theorem nodeAddChild_wellLinked (hh : WellLinked h) {p c : Nat} (hFree : Unattached h c)
    (hRun : nodeAddChild h p c = .ok h') : WellLinked h' := by
  obtain ⟨h₁, hList, -⟩ := bind_eq_ok_iff.mp hRun
  obtain ⟨⟨p', pc⟩, hp, hList⟩ := bind_eq_ok_iff.mp hList
  obtain ⟨⟨c', cc⟩, hc, -⟩ := bind_eq_ok_iff.mp hList
  obtain ⟨hp', hpCell⟩ := deref_some hp
  obtain ⟨hc', hcCell⟩ := deref_some hc
  cases hp'
  cases hc'
  rw [nodeAddChild_eq hpCell hcCell] at hRun
  cases hRun
  exact hh.attach hpCell hcCell (hFree cc hcCell)

theorem nodeAddSib_wellLinked (hh : WellLinked h) {a c : Nat} (ha : a < h.length) (hFree : Unattached h c)
    (hRun : nodeAddSib h a c = .ok h') : WellLinked h' := by
  obtain ⟨⟨c', cc⟩, hc, -⟩ := bind_eq_ok_iff.mp hRun
  obtain ⟨hc', hcCell⟩ := deref_some hc
  cases hc'
  rw [nodeAddSib_eq hcCell] at hRun
  cases hRun
  exact hh.setSibling hcCell (hFree cc hcCell) ha

theorem nodeName_wellLinked (hh : WellLinked h) (a : Nat) (name : Option Bytes) : WellLinked (nodeName h a name) := by
  rw [nodeName]
  split
  · exact hh.setData a _
  · exact hh

/-! ### `Node_cons` -/

/-- The nodes are well linked and the current one is there. -/
def Standing (h : Heap D) (cur : Option Nat) : Prop := WellLinked h ∧ ∀ a, cur = some a → a < h.length

theorem length_nodeName (h : Heap D) (a : Nat) (name : Option Bytes) : (nodeName h a name).length = h.length := by
  rw [nodeName]
  split
  · exact length_setData h a _
  · rfl

theorem Standing.name {cur : Option Nat} (hs : Standing h cur) (a : Nat) (name : Option Bytes) :
    Standing (nodeName h a name) cur := by
  refine ⟨nodeName_wellLinked hs.1 a name, ?_⟩
  rw [length_nodeName]
  exact hs.2

theorem Standing.create {cur : Option Nat} (hs : Standing h cur) (value : Value D) :
    Standing (nodeCreate h cur value) cur := by
  refine ⟨hs.1.create hs.2 _, ?_⟩
  intro a ha
  rw [nodeCreate, length_create]
  exact Nat.lt_succ_of_lt (hs.2 a ha)

theorem Standing.up {cur : Option Nat} (hs : Standing h cur) {a : Nat} {cell : Cell (NodeData D)}
    (hCell : h[a]? = some cell) : Standing h cell.parent :=
  ⟨hs.1, fun _ hp => hs.1.parent_lt hCell hp⟩

theorem Standing.start {cur : Option Nat} (hs : Standing h cur) :
    Standing (nodeCreate h cur .group) (some h.length) := by
  refine ⟨(hs.create .group).1, ?_⟩
  intro a ha
  cases ha
  rw [nodeCreate, length_create]
  exact Nat.lt_succ_self _

theorem consName_standing {cur node : Option Nat} (hs : Standing h cur) {name : Bytes}
    (hRun : consName h node name = .ok h') : Standing h' cur := by
  cases node with
  | none => cases hRun
  | some a =>
    cases hRun
    exact hs.name a _

theorem consPiece_standing {errno : Nat} {c c' : Cons D} {p : Piece D} (hp : ∀ node, p ≠ .group node)
    (hs : Standing c.heap c.cur) (hRun : consPiece errno c p = .ok (some c')) : Standing c'.heap c'.cur := by
  cases p with
  | start =>
    cases hRun
    exact hs.start
  | number n =>
    cases hRun
    exact hs.create _
  | float x =>
    cases hRun
    exact hs.create _
  | blob b =>
    simp only [consPiece, pure, Except.pure, Except.ok.injEq] at hRun
    split at hRun
    · cases hRun
      exact hs.create _
    · cases hRun
  | string b =>
    simp only [consPiece, pure, Except.pure, Except.ok.injEq] at hRun
    split at hRun
    · cases hRun
      exact hs.create _
    · cases hRun
  | close =>
    obtain ⟨⟨a, node⟩, hDeref, hPure⟩ := bind_eq_ok_iff.mp hRun
    cases hPure
    exact hs.up (deref_some hDeref).2
  | attr name =>
    simp only [consPiece] at hRun
    split at hRun
    · cases hRun
    · obtain ⟨⟨a, node⟩, -, hRest⟩ := bind_eq_ok_iff.mp hRun
      obtain ⟨heap, hName, hPure⟩ := bind_eq_ok_iff.mp hRest
      cases hPure
      exact consName_standing hs hName
  | word name =>
    simp only [consPiece] at hRun
    split at hRun
    · cases hRun
    · obtain ⟨heap, hName, hRest⟩ := bind_eq_ok_iff.mp hRun
      obtain ⟨⟨a, node⟩, hDeref, hPure⟩ := bind_eq_ok_iff.mp hRest
      cases hPure
      exact (consName_standing hs hName).up (deref_some hDeref).2
  | group node => exact absurd rfl (hp node)

theorem consLoop_wellLinked {errno : Nat} {format : List (Piece D)} {c : Cons D} {root : Option Nat}
    (hFormat : ∀ node, Piece.group node ∉ format) (hs : Standing c.heap c.cur)
    (hRun : consLoop errno format c = .ok (root, h')) : WellLinked h' := by
  induction format generalizing c with
  | nil =>
    simp only [consLoop] at hRun
    split at hRun
    · cases hRun
      exact hs.1
    · cases hRun
  | cons p rest ih =>
    obtain ⟨step, hStep, hRest⟩ := bind_eq_ok_iff.mp hRun
    cases step with
    | none =>
      cases hRest
      exact hs.1
    | some c' =>
      have hp : ∀ node, p ≠ .group node := by
        rintro node rfl
        exact hFormat node List.mem_cons_self
      exact ih (fun node hMem => hFormat node (List.mem_cons_of_mem p hMem)) (consPiece_standing hp hs hStep) hRest

/-! ### `Node_parse` -/

section Parse
variable {lib : DoubleLib D} {buf : Bytes}

/-- What the parser points at is there. -/
def Store.Stands (st : Store D) : Prop := Standing st.heap st.current

theorem nodeFromStr_cases (lib : DoubleLib D) (st : Store D) (parent : Nat) (type : NodeType) (start : Bytes)
    (length : Nat) :
    (nodeFromStr lib st parent type start length).2.current = st.current ∧
      ((nodeFromStr lib st parent type start length).2.heap = st.heap ∨
        ∃ value, (nodeFromStr lib st parent type start length).2.heap = nodeCreate st.heap (some parent) value) := by
  cases type with
  | blob => exact ⟨rfl, .inr ⟨_, rfl⟩⟩
  | string => exact ⟨rfl, .inr ⟨_, rfl⟩⟩
  | invalid => exact ⟨rfl, .inl rfl⟩
  | group => exact ⟨rfl, .inl rfl⟩
  | number | float =>
    simp only [nodeFromStr]
    split_ifs
    all_goals first
      | exact ⟨rfl, .inl rfl⟩
      | exact ⟨rfl, .inr ⟨_, rfl⟩⟩

theorem handlePush_stands {st st' : Store D} {type : NodeType} {start : Bytes} {length : Nat} {ok : Bool}
    (hs : st.Stands) (hRun : handlePush lib st type start length = .ok (ok, st')) : st'.Stands := by
  simp only [handlePush] at hRun
  split at hRun
  · cases hRun
    exact hs
  · rename_i current hCurrent
    split at hRun
    · cases hRun
      exact hs
    · split at hRun
      · cases hRun
      · split at hRun
        · have hEq : (nodeFromStr lib st current type start length).2 = st' :=
            congrArg Prod.snd (Except.ok.inj hRun)
          obtain ⟨hCur, hHeap⟩ := nodeFromStr_cases lib st current type start length
          have hNew : Standing (nodeFromStr lib st current type start length).2.heap
              (nodeFromStr lib st current type start length).2.current := by
            rw [hCur]
            rcases hHeap with hHeap | ⟨value, hHeap⟩
            · rw [hHeap]
              exact hs
            · rw [hHeap, ← hCurrent]
              exact hs.create value
          rw [hEq] at hNew
          exact hNew
        · cases hRun
          exact hs

theorem handleWord_stands {st st' : Store D} {start : Option Bytes} {length : Nat} {rc : Int}
    (hs : st.Stands) (hRun : handleWord st start length = .ok (rc, st')) : st'.Stands := by
  simp only [handleWord] at hRun
  split at hRun
  · rename_i root current hRoot hCurrent
    split at hRun
    · cases hRun
      exact hs
    · split at hRun
      · cases hRun
      · rename_i node hNode
        obtain ⟨name, -, hRest⟩ := bind_eq_ok_iff.mp hRun
        have hNamed : Standing (nodeName st.heap current name) st.current := hs.name current name
        split at hRest
        · cases hRest
          exact hNamed
        · cases hRest
          refine ⟨hNamed.1, ?_⟩
          rw [length_nodeName]
          exact (Standing.up hs hNode).2
  · cases hRun
    exact hs

theorem handleAttr_stands {st st' : Store D} {start : Bytes} {length : Nat} {ok : Bool}
    (hs : st.Stands) (hRun : handleAttr st start length = .ok (ok, st')) : st'.Stands := by
  simp only [handleAttr] at hRun
  split at hRun
  · cases hRun
  · split at hRun
    · cases hRun
    · split at hRun
      · cases hRun
        exact hs
      · split at hRun
        · cases hRun
          exact hs
        · split at hRun
          · cases hRun
          · cases hRun
            exact hs.name _ _

theorem push_stands {ps ps' : Parser D} {p : Nat} {type : NodeType} {ok : Bool} (hs : ps.store.Stands)
    (hRun : push lib buf p type ps = .ok (ok, ps')) : ps'.store.Stands := by
  obtain ⟨⟨ok', store⟩, hPush, hRest⟩ := bind_eq_ok_iff.mp hRun
  cases hRest
  exact handlePush_stands hs hPush

theorem runAction_stands {ps ps' : Parser D} {p : Nat} {act : Action} {out : Bool} (hs : ps.store.Stands)
    (hRun : runAction lib buf p ps act = .ok (out, ps')) : ps'.store.Stands := by
  cases act with
  | mark =>
    cases hRun
    exact hs
  | number | float | string =>
    obtain ⟨⟨ok, ps₁⟩, hPush, hRest⟩ := bind_eq_ok_iff.mp hRun
    cases hRest
    exact push_stands hs hPush
  | blob =>
    obtain ⟨⟨ok, ps₁⟩, hPush, hRest⟩ := bind_eq_ok_iff.mp hRun
    cases hRest
    have hNew := push_stands hs hPush
    cases ok <;> exact hNew
  | start =>
    cases hRun
    exact Standing.start hs
  | word | group =>
    obtain ⟨⟨rc, store⟩, hWord, hRest⟩ := bind_eq_ok_iff.mp hRun
    cases hRest
    exact handleWord_stands hs hWord
  | more =>
    simp only [runAction] at hRun
    split at hRun
    · cases hRun
      dsimp only
      split <;> exact hs
    · cases hRun
  | attrib =>
    obtain ⟨⟨ok, store⟩, hAttr, hRest⟩ := bind_eq_ok_iff.mp hRun
    cases hRest
    exact handleAttr_stands hs hAttr

theorem runActions_stands {acts : List Action} {ps ps' : Parser D} {p : Nat} {out : Bool} (hs : ps.store.Stands)
    (hRun : runActions lib buf p acts ps = .ok (out, ps')) : ps'.store.Stands := by
  induction acts generalizing ps with
  | nil =>
    cases hRun
    exact hs
  | cons act acts ih =>
    obtain ⟨⟨out₁, ps₁⟩, hAct, hRest⟩ := bind_eq_ok_iff.mp hRun
    have hNew := runAction_stands hs hAct
    dsimp only at hRest
    split at hRest
    · cases hRest
      exact hNew
    · exact ih hNew hRest

theorem scan_stands {rest : Bytes} {p q : Nat} {ps ps' : Parser D} (hs : ps.store.Stands)
    (hRun : scan lib buf rest p ps = .ok (q, ps')) : ps'.store.Stands := by
  induction rest generalizing p ps with
  | nil =>
    cases hRun
    exact hs
  | cons c rest ih =>
    obtain ⟨⟨out, ps₁⟩, hActs, hRest⟩ := bind_eq_ok_iff.mp hRun
    have hNew := runActions_stands (by exact hs) hActs
    dsimp only at hRest
    split at hRest
    · cases hRest
      exact hNew
    · split at hRest
      · cases hRest
        exact hNew
      · exact ih hNew hRest

theorem execute_stands {ps ps' : Parser D} {off : Nat} (hs : ps.store.Stands)
    (hRun : stackishParserExecute lib ps buf off = .ok ps') : ps'.store.Stands := by
  simp only [stackishParserExecute] at hRun
  split at hRun
  · cases hRun
  · have hEnd : ∀ {p : Nat} {ps₁ : Parser D}, ps₁.store.Stands →
        ((do
          if buf.length < p then throw (.assertFailed "buffer overflow after parsing execute")
          pure { ps₁ with nread := p }) : Run (Parser D)) = .ok ps' → ps'.store.Stands := by
      intro p ps₁ hNew hRest
      dsimp only at hRest
      split at hRest
      · cases hRest
      · cases hRest
        exact hNew
    split at hRun
    · obtain ⟨⟨p, ps₁⟩, hPure, hRest⟩ := bind_eq_ok_iff.mp hRun
      cases hPure
      exact hEnd hs hRest
    · obtain ⟨⟨p, ps₁⟩, hScan, hRest⟩ := bind_eq_ok_iff.mp hRun
      exact hEnd (scan_stands hs hScan) hRest

theorem parseLoop_wellLinked {fuel : Nat} {ps : Parser D} {r : Parsed D} (hs : ps.store.Stands)
    (hRun : parseLoop lib buf fuel ps = .ok r) : WellLinked r.heap := by
  induction fuel generalizing ps with
  | zero => cases hRun
  | succ fuel ih =>
    simp only [parseLoop] at hRun
    split at hRun
    · obtain ⟨freed, -, hRest⟩ := bind_eq_ok_iff.mp hRun
      cases hRest
      exact hs.1
    · split at hRun
      · split at hRun
        · cases hRun
        · obtain ⟨ps₁, hExecute, hRest⟩ := bind_eq_ok_iff.mp hRun
          exact ih (execute_stands hs hExecute) hRest
      · cases hRun
        exact hs.1

theorem nodeParse_wellLinked (hh : WellLinked h) {fuel errno : Nat} {r : Parsed D}
    (hRun : nodeParse lib fuel h errno buf = .ok r) : WellLinked r.heap := by
  have hs : (stackishParserInit h errno).store.Stands := ⟨hh, by simp [stackishParserInit]⟩
  simp only [nodeParse, nodeParseSeq] at hRun
  split at hRun
  · obtain ⟨ps, hExecute, hRest⟩ := bind_eq_ok_iff.mp hRun
    exact parseLoop_wellLinked (execute_stands hs hExecute) hRest
  · obtain ⟨freed, -, hRest⟩ := bind_eq_ok_iff.mp hRun
    cases hRest
    exact hh

end Parse

end Calls

/-! ## Runs -/

theorem TreeStep.wellLinked {lib : DoubleLib D} {s s' : TreeState D} {call : TreeCall D}
    (hh : WellLinked s.heap) (hBeside : s.beside = []) (hClean : call.Clean s.heap)
    (hStep : TreeStep lib s call s') : WellLinked s'.heap ∧ s'.beside = [] := by
  cases hStep with
  | new hRun => exact ⟨nodeNew_wellLinked hh hRun, hBeside⟩
  | addChild hRun => exact ⟨nodeAddChild_wellLinked hh hClean hRun, hBeside⟩
  | addSib hCell hRun =>
    have hLt := (List.getElem?_eq_some_iff.mp hCell).1
    refine ⟨nodeAddSib_wellLinked hh hLt hClean.2 hRun, ?_⟩
    rw [hClean.1 _ hCell, hBeside]
    rfl
  | cons hRun => exact ⟨consLoop_wellLinked hClean ⟨hh, by simp⟩ hRun, hBeside⟩
  | parse hRun =>
    obtain ⟨-, fuel, hFuel⟩ := hRun
    exact ⟨nodeParse_wellLinked hh hFuel, hBeside⟩

/-- In every run of clean calls the links hold in every state. -/
theorem CleanRun.linksHold {lib : DoubleLib D} {s : TreeState D} (hRun : CleanRun lib s) : LinksHold s := by
  have hInv : WellLinked s.heap ∧ s.beside = [] := by
    induction hRun with
    | start => exact ⟨WellLinked.nil, rfl⟩
    | step _ hClean hStep ih => exact hStep.wellLinked ih.1 ih.2 hClean
  obtain ⟨heap, beside⟩ := s
  obtain rfl : beside = [] := hInv.2
  exact linksHold_of_wellLinked hInv.1

theorem CleanRun.new {lib : DoubleLib D} {s : TreeState D} (hRun : CleanRun lib s) (parent : Option Nat)
    (value : Value D) {heap : Heap D} (hNew : nodeNew s.heap parent value = .ok heap) :
    CleanRun lib ⟨heap, s.beside⟩ :=
  hRun.step (by rw [TreeCall.Clean]; trivial) (.new hNew)

/-- A group, a number in it, and a second group. -/
def threeNodes : Heap Unit :=
  [⟨⟨none, .group⟩, none, none, some 1⟩, ⟨⟨none, .number 5⟩, some 0, none, none⟩,
    ⟨⟨none, .group⟩, none, none, none⟩]

theorem cleanRun_threeNodes : CleanRun noDoubles ⟨threeNodes, []⟩ := by
  have hGroup : CleanRun noDoubles (⟨[⟨⟨none, .group⟩, none, none, none⟩], []⟩ : TreeState Unit) :=
    CleanRun.start.new none .group rfl
  have hNumber : CleanRun noDoubles
      (⟨[⟨⟨none, .group⟩, none, none, some 1⟩, ⟨⟨none, .number 5⟩, some 0, none, none⟩], []⟩ : TreeState Unit) :=
    hGroup.new (some 0) (.number 5) rfl
  exact hNumber.new none .group rfl

/-- The second group becomes a child of the first. -/
theorem CleanRun.linksHold_threeNodes :
    let heap : Heap Unit := [⟨⟨none, .group⟩, none, none, some 2⟩, ⟨⟨none, .number 5⟩, some 0, none, none⟩,
      ⟨⟨none, .group⟩, some 0, some 1, none⟩]
    TreeStep noDoubles ⟨threeNodes, []⟩ (.addChild 0 2) ⟨heap, []⟩ ∧ LinksHold ⟨heap, []⟩ := by
  intro heap
  have hFree : (TreeCall.addChild 0 2 : TreeCall Unit).Clean threeNodes := by
    intro cell hCell
    cases hCell
    rfl
  have hStep : TreeStep noDoubles ⟨threeNodes, []⟩ (.addChild 0 2) ⟨heap, []⟩ := .addChild rfl
  exact ⟨hStep, CleanRun.linksHold (cleanRun_threeNodes.step hFree hStep)⟩

/-- A finished group in a format keeps its missing parent, and a node next to the number is not found from
the group around it. -/
theorem not_linksHold_threeNodes :
    (∃ s, TreeStep noDoubles ⟨threeNodes, []⟩ (.cons 0 [.start, .group (some 2), .word [97]]) s ∧ ¬LinksHold s) ∧
      ∃ s, TreeStep noDoubles ⟨threeNodes, []⟩ (.addSib 1 2) s ∧ ¬LinksHold s := by
  constructor
  · have hStep : TreeStep noDoubles ⟨threeNodes, []⟩ (.cons 0 [.start, .group (some 2), .word [97]])
        ⟨threeNodes ++ [⟨⟨some [97], .group⟩, none, none, some 2⟩], []⟩ := .cons rfl
    refine ⟨_, hStep, ?_⟩
    intro hLinks
    have hParent := hLinks.child 3 2 _ ⟨_, rfl, .here 2⟩ rfl
    cases hParent
  · refine ⟨⟨_, _⟩, .addSib rfl rfl, ?_⟩
    intro hLinks
    obtain ⟨cell, hCell, hListed⟩ := hLinks.beside (0, 2) (List.mem_singleton.mpr rfl)
    cases hCell
    cases hListed with
    | later hNumber hRest =>
      cases hNumber
      cases hRest

end Utu.Stackish
