import Mathlib

/-!
# First-child, next-sibling trees stored in an arena

An arena is a list of cells addressed by position. A cell carries a parent, a
sibling and a child link; a forest is the value such links unfold to. The
relation `Stored` keeps every address, parent links included, so that a write
is framed by address alone. A `Spine` is the path from an open node back to the
root together with the finished children along it: it is what a builder holds
while it still adds nodes below an unfinished root.
-/

namespace LinkedForest
set_option autoImplicit false

universe u v
variable {α : Type u} {β : Type v}

inductive Forest (α : Type u) where
  | nil
  | node (data : α) (child sibling : Forest α)
deriving DecidableEq, Repr

structure Cell (α : Type u) where
  data : α
  parent : Option Nat
  sibling : Option Nat
  child : Option Nat
deriving DecidableEq, Repr

abbrev Arena (α : Type u) := List (Cell α)

/-- A forest whose nodes remember the address they are stored at. -/
abbrev Located (α : Type u) := Forest (Nat × α)

namespace Forest

def map (f : α → β) : Forest α → Forest β
  | nil => nil
  | node d c s => node (f d) (c.map f) (s.map f)

def erase (f : Located α) : Forest α := f.map Prod.snd

@[simp] theorem erase_nil : (nil : Located α).erase = nil := rfl

@[simp] theorem erase_node (a : Nat × α) (c s : Located α) :
    (node a c s).erase = node a.2 c.erase s.erase := rfl

/-- The pointer by which the forest is reached. -/
def ptr : Located α → Option Nat
  | nil => none
  | node a _ _ => some a.1

def addrs : Located α → List Nat
  | nil => []
  | node a c s => a.1 :: (c.addrs ++ s.addrs)

def All (p : α → Prop) : Forest α → Prop
  | nil => True
  | node d c s => p d ∧ c.All p ∧ s.All p

/-- The longest path over child and sibling links. -/
def height : Forest α → Nat
  | nil => 0
  | node _ c s => 1 + max c.height s.height

def size : Forest α → Nat
  | nil => 0
  | node _ c s => 1 + c.size + s.size

theorem height_le_size (f : Forest α) : f.height ≤ f.size := by
  induction f with
  | nil => exact Nat.le_refl _
  | node d c s ihc ihs =>
    simp only [height, size]
    omega

/-- Siblings, then children, then the node. -/
def postorder : Forest α → List α
  | nil => []
  | node d c s => s.postorder ++ c.postorder ++ [d]

theorem height_erase (f : Located α) : f.erase.height = f.height := by
  induction f with
  | nil => rfl
  | node a c s ihc ihs => simp [height, ihc, ihs]

theorem length_addrs (f : Located α) : f.addrs.length = f.size := by
  induction f with
  | nil => rfl
  | node a c s ihc ihs =>
    simp only [addrs, size, List.length_cons, List.length_append, ihc, ihs]
    omega

theorem mem_addrs_of_mem_postorder {f : Located α} {a : Nat × α} (h : a ∈ f.postorder) :
    a.1 ∈ f.addrs := by
  induction f with
  | nil => cases h
  | node b c s ihc ihs =>
    simp only [postorder, List.mem_append, List.mem_singleton] at h
    rcases h with (h | h) | rfl
    · simp [addrs, ihs h]
    · simp [addrs, ihc h]
    · simp [addrs]

end Forest

open Forest

/-- The arena holds exactly this forest, every top-level node linked to `par`. -/
def Stored (h : Arena α) : Option Nat → Located α → Prop
  | _, .nil => True
  | par, .node a c s =>
    h[a.1]? = some ⟨a.2, par, s.ptr, c.ptr⟩ ∧ Stored h (some a.1) c ∧ Stored h par s

/-- The pointer `p` unfolds to the tree `t` with all links in place. -/
def Represents (h : Arena α) (par p : Option Nat) (t : Forest α) : Prop :=
  ∃ f : Located α, f.erase = t ∧ f.ptr = p ∧ Stored h par f ∧ f.addrs.Nodup

theorem Stored.congr {h h' : Arena α} {par : Option Nat} {f : Located α}
    (hEq : ∀ a ∈ f.addrs, h'[a]? = h[a]?) (hf : Stored h par f) : Stored h' par f := by
  induction f generalizing par with
  | nil => trivial
  | node a c s ihc ihs =>
    obtain ⟨hCell, hc, hs⟩ := hf
    refine ⟨?_, ihc ?_ hc, ihs ?_ hs⟩
    · rw [hEq a.1 (by simp [addrs]), hCell]
    · intro b hb
      exact hEq b (by simp [addrs, hb])
    · intro b hb
      exact hEq b (by simp [addrs, hb])

theorem Stored.lt {h : Arena α} {par : Option Nat} {f : Located α}
    (hf : Stored h par f) : ∀ a ∈ f.addrs, a < h.length := by
  induction f generalizing par with
  | nil => simp [addrs]
  | node a c s ihc ihs =>
    obtain ⟨hCell, hc, hs⟩ := hf
    intro b hb
    simp only [addrs, List.mem_cons, List.mem_append] at hb
    rcases hb with rfl | hb | hb
    · exact (List.getElem?_eq_some_iff.mp hCell).1
    · exact ihc hc b hb
    · exact ihs hs b hb

/-- The links determine the forest. -/
theorem Stored.unique {h : Arena α} {par : Option Nat} {f g : Located α} (hf : Stored h par f)
    (hg : Stored h par g) (hPtr : f.ptr = g.ptr) : f = g := by
  induction f generalizing par g with
  | nil =>
    cases g with
    | nil => rfl
    | node => cases hPtr
  | node a c s ihc ihs =>
    cases g with
    | nil => cases hPtr
    | node b c' s' =>
      obtain ⟨hCell, hc, hs⟩ := hf
      obtain ⟨hCell', hc', hs'⟩ := hg
      have hAddr : a.1 = b.1 := Option.some.inj hPtr
      rw [hAddr, hCell', Option.some.injEq, Cell.mk.injEq] at hCell
      obtain ⟨hData, -, hSib, hKid⟩ := hCell
      obtain rfl : a = b := Prod.ext hAddr hData.symm
      rw [ihc hc hc' hKid.symm, ihs hs hs' hSib.symm]

theorem Represents.unique {h : Arena α} {par p : Option Nat} {t t' : Forest α}
    (ht : Represents h par p t) (ht' : Represents h par p t') : t = t' := by
  obtain ⟨f, rfl, hPtr, hf, -⟩ := ht
  obtain ⟨g, rfl, hPtr', hg, -⟩ := ht'
  rw [hf.unique hg (hPtr.trans hPtr'.symm)]

/-- A stored forest without sharing is no larger than its arena. -/
theorem Stored.size_le {h : Arena α} {par : Option Nat} {f : Located α}
    (hf : Stored h par f) (hNodup : f.addrs.Nodup) : f.size ≤ h.length := by
  rw [← length_addrs]
  have hSub : f.addrs ⊆ List.range h.length := fun a ha => List.mem_range.mpr (hf.lt a ha)
  simpa using List.Nodup.length_le_of_subset hNodup hSub

/-- The sibling and child links unfold to this forest, whatever the parent links are. -/
def Linked (h : Arena α) : Located α → Prop
  | .nil => True
  | .node a c s =>
    (∃ par, h[a.1]? = some ⟨a.2, par, s.ptr, c.ptr⟩) ∧ Linked h c ∧ Linked h s

theorem Stored.linked {h : Arena α} {par : Option Nat} {f : Located α} (hf : Stored h par f) : Linked h f := by
  induction f generalizing par with
  | nil => trivial
  | node a c s ihc ihs => exact ⟨⟨par, hf.1⟩, ihc hf.2.1, ihs hf.2.2⟩

theorem Linked.lt {h : Arena α} {f : Located α} (hf : Linked h f) : ∀ a ∈ f.addrs, a < h.length := by
  induction f with
  | nil => simp [addrs]
  | node a c s ihc ihs =>
    obtain ⟨⟨par, hCell⟩, hc, hs⟩ := hf
    intro b hb
    simp only [addrs, List.mem_cons, List.mem_append] at hb
    rcases hb with rfl | hb | hb
    · exact (List.getElem?_eq_some_iff.mp hCell).1
    · exact ihc hc b hb
    · exact ihs hs b hb

/-- A linked forest without sharing is no larger than its arena. -/
theorem Linked.size_le {h : Arena α} {f : Located α} (hf : Linked h f) (hNodup : f.addrs.Nodup) :
    f.size ≤ h.length := by
  rw [← length_addrs]
  have hSub : f.addrs ⊆ List.range h.length := fun a ha => List.mem_range.mpr (hf.lt a ha)
  simpa using List.Nodup.length_le_of_subset hNodup hSub

/-! ## Links -/

/-- A sibling or child link leads from `a` to `b`. -/
def Link (h : Arena α) (a b : Nat) : Prop :=
  ∃ cell, h[a]? = some cell ∧ (cell.sibling = some b ∨ cell.child = some b)

/-- No link leads out of a linked forest. -/
theorem Linked.closed {h : Arena α} {f : Located α} (hf : Linked h f) {a b : Nat} (ha : a ∈ f.addrs)
    (hLink : Link h a b) : b ∈ f.addrs := by
  have hHead : ∀ {g : Located α}, g.ptr = some b → b ∈ g.addrs := by
    intro g hPtr
    cases g with
    | nil => cases hPtr
    | node d c s =>
      cases hPtr
      exact List.mem_cons_self
  induction f with
  | nil => cases ha
  | node d c s ihc ihs =>
    obtain ⟨⟨par, hCell⟩, hc, hs⟩ := hf
    simp only [addrs, List.mem_cons, List.mem_append] at ha ⊢
    rcases ha with rfl | ha | ha
    · obtain ⟨cell, hCell', hNext⟩ := hLink
      rw [hCell] at hCell'
      cases hCell'
      rcases hNext with hNext | hNext
      · exact .inr (.inr (hHead hNext))
      · exact .inr (.inl (hHead hNext))
    · exact .inr (.inl (ihc hc ha))
    · exact .inr (.inr (ihs hs ha))

theorem Linked.closed_trans {h : Arena α} {f : Located α} (hf : Linked h f) {a b : Nat} (ha : a ∈ f.addrs)
    (hPath : Relation.TransGen (Link h) a b) : b ∈ f.addrs := by
  induction hPath with
  | single hLink => exact hf.closed ha hLink
  | tail _ hLink ih => exact hf.closed ih hLink

/-- The addresses of a linked forest are those its links lead to. -/
theorem Linked.mem_addrs_iff {h : Arena α} {f : Located α} (hf : Linked h f) {b : Nat} :
    b ∈ f.addrs ↔ ∃ a, f.ptr = some a ∧ Relation.ReflTransGen (Link h) a b := by
  constructor
  · intro hb
    induction f with
    | nil => cases hb
    | node d c s ihc ihs =>
      obtain ⟨⟨par, hCell⟩, hc, hs⟩ := hf
      refine ⟨d.1, rfl, ?_⟩
      simp only [addrs, List.mem_cons, List.mem_append] at hb
      rcases hb with rfl | hb | hb
      · exact .refl
      · obtain ⟨a, hPtr, hPath⟩ := ihc hc hb
        exact .head ⟨_, hCell, .inr hPtr⟩ hPath
      · obtain ⟨a, hPtr, hPath⟩ := ihs hs hb
        exact .head ⟨_, hCell, .inl hPtr⟩ hPath
  · rintro ⟨a, hPtr, hPath⟩
    have ha : a ∈ f.addrs := by
      cases f with
      | nil => cases hPtr
      | node d c s =>
        cases hPtr
        exact List.mem_cons_self
    rcases Relation.reflTransGen_iff_eq_or_transGen.mp hPath with rfl | hPath
    · exact ha
    · exact hf.closed_trans ha hPath

theorem Forest.postorder_perm_addrs (f : Located α) : (f.postorder.map Prod.fst).Perm f.addrs := by
  induction f with
  | nil => exact List.Perm.refl _
  | node a c s ihc ihs =>
    simp only [postorder, addrs, List.map_append, List.map_singleton]
    apply (List.perm_append_singleton _ _).trans
    apply List.Perm.cons
    exact (ihs.append ihc).trans List.perm_append_comm

/-- In post-order no node comes before one that its links lead to. -/
theorem Linked.postorder_pairwise {h : Arena α} {f : Located α} (hf : Linked h f) (hNodup : f.addrs.Nodup) :
    (f.postorder.map Prod.fst).Pairwise fun a b => ¬Relation.TransGen (Link h) a b := by
  induction f with
  | nil => exact List.Pairwise.nil
  | node d c s ihc ihs =>
    obtain ⟨-, hc, hs⟩ := hf
    simp only [addrs, List.nodup_cons, List.mem_append, not_or, List.nodup_append] at hNodup
    obtain ⟨⟨hdc, hds⟩, hcn, hsn, hDisj⟩ := hNodup
    have hMem : ∀ {g : Located α} {a : Nat}, a ∈ g.postorder.map Prod.fst → a ∈ g.addrs :=
      fun ha => (postorder_perm_addrs _).mem_iff.mp ha
    simp only [postorder, List.map_append, List.map_singleton]
    apply List.pairwise_append.mpr
    refine ⟨List.pairwise_append.mpr ⟨ihs hs hsn, ihc hc hcn, ?_⟩, List.pairwise_singleton _ _, ?_⟩
    · intro a ha b hb hPath
      exact hDisj b (hMem hb) b (hs.closed_trans (hMem ha) hPath) rfl
    · intro a ha b hb hPath
      rw [List.mem_singleton.mp hb] at hPath
      rcases List.mem_append.mp ha with ha | ha
      · exact hds (hs.closed_trans (hMem ha) hPath)
      · exact hdc (hc.closed_trans (hMem ha) hPath)

/-! ## Arena operations -/

def setData (h : Arena α) (a : Nat) (d : α) : Arena α :=
  h.modify a (fun c => { c with data := d })

/-- Allocate a cell and put it in front of the children of `parent`. -/
def create (h : Arena α) (parent : Option Nat) (d : α) : Arena α :=
  match parent with
  | none => h ++ [⟨d, none, none, none⟩]
  | some p =>
    h.modify p (fun c => { c with child := some h.length }) ++
      [⟨d, some p, (h[p]?).bind Cell.child, none⟩]

@[simp] theorem length_setData (h : Arena α) (a : Nat) (d : α) :
    (setData h a d).length = h.length := by
  simp [setData]

@[simp] theorem length_create (h : Arena α) (parent : Option Nat) (d : α) :
    (create h parent d).length = h.length + 1 := by
  cases parent <;> simp [create]

theorem setData_self {h : Arena α} {a : Nat} {c : Cell α} (hCell : h[a]? = some c) (d : α) :
    (setData h a d)[a]? = some { c with data := d } := by
  simp [setData, hCell]

theorem setData_other {h : Arena α} {a b : Nat} (hNe : b ≠ a) (d : α) :
    (setData h a d)[b]? = h[b]? := by
  simp [setData, Ne.symm hNe]

theorem create_fresh_root (h : Arena α) (d : α) :
    (create h none d)[h.length]? = some ⟨d, none, none, none⟩ := by
  simp [create]

theorem create_fresh {h : Arena α} {p : Nat} {c : Cell α} (hCell : h[p]? = some c) (d : α) :
    (create h (some p) d)[h.length]? = some ⟨d, some p, c.child, none⟩ := by
  simp [create, hCell]

theorem create_parent {h : Arena α} {p : Nat} {c : Cell α} (hCell : h[p]? = some c) (d : α) :
    (create h (some p) d)[p]? = some { c with child := some h.length } := by
  obtain ⟨hLt, rfl⟩ := List.getElem?_eq_some_iff.mp hCell
  simp [create, hLt, List.getElem?_append_left]

theorem create_other {h : Arena α} {parent : Option Nat} {a : Nat} (hLt : a < h.length)
    (hNe : parent ≠ some a) (d : α) : (create h parent d)[a]? = h[a]? := by
  cases parent with
  | none => simp [create, List.getElem?_append_left, hLt]
  | some p =>
    have hp : p ≠ a := fun he => hNe (congrArg some he)
    simp [create, List.getElem?_append_left, hLt, hp]

/-- The cells of `h` are the first cells of `h'`. -/
structure Extends (h h' : Arena α) : Prop where
  length_le : h.length ≤ h'.length
  same : ∀ a < h.length, h'[a]? = h[a]?

theorem Extends.refl (h : Arena α) : Extends h h := ⟨Nat.le_refl _, fun _ _ => rfl⟩

theorem Extends.trans {h h' h'' : Arena α} (h₁ : Extends h h') (h₂ : Extends h' h'') :
    Extends h h'' := by
  refine ⟨Nat.le_trans h₁.length_le h₂.length_le, fun a ha => ?_⟩
  rw [h₂.same a (Nat.lt_of_lt_of_le ha h₁.length_le), h₁.same a ha]

theorem Extends.create {h h' : Arena α} (hExt : Extends h h') {parent : Option Nat}
    (hParent : ∀ p, parent = some p → h.length ≤ p) (d : α) :
    Extends h (create h' parent d) := by
  have hLen := hExt.length_le
  refine ⟨by rw [length_create]; omega, fun a ha => ?_⟩
  rw [create_other (by omega) (fun he => ?_) d, hExt.same a ha]
  have := hParent a he
  omega

theorem Extends.setData {h h' : Arena α} (hExt : Extends h h') {b : Nat} (hb : h.length ≤ b)
    (d : α) : Extends h (setData h' b d) := by
  refine ⟨by rw [length_setData]; exact hExt.length_le, fun a ha => ?_⟩
  rw [setData_other (by omega) d, hExt.same a ha]

/-- A stored tree is still stored in an extension of its arena. -/
theorem Represents.extend {h h' : Arena α} {par p : Option Nat} {t : Forest α}
    (ht : Represents h par p t) (hExt : Extends h h') : Represents h' par p t := by
  obtain ⟨f, hErase, hPtr, hStored, hNodup⟩ := ht
  exact ⟨f, hErase, hPtr, hStored.congr fun a ha => hExt.same a (hStored.lt a ha), hNodup⟩

/-! ## Spines -/

/-- Open nodes from the innermost outwards, each with its finished children. -/
abbrev Spine (α : Type u) := List ((Nat × α) × Located α)

namespace Spine

def top : Spine α → Option Nat
  | [] => none
  | (a, _) :: _ => some a.1

/-- The address of the outermost open node. -/
def bottom : Spine α → Option Nat
  | [] => none
  | [(a, _)] => some a.1
  | _ :: frame :: rest => bottom (frame :: rest)

def kids : Spine α → Option Nat
  | [] => none
  | (_, k) :: _ => k.ptr

def addrs : Spine α → List Nat
  | [] => []
  | (a, k) :: rest => a.1 :: (k.addrs ++ addrs rest)

/-- `child` is the child link of the innermost open node. -/
def StoredFrom (h : Arena α) : Option Nat → Spine α → Prop
  | _, [] => True
  | child, (a, k) :: rest =>
    h[a.1]? = some ⟨a.2, top rest, kids rest, child⟩ ∧ Stored h (some a.1) k ∧
      StoredFrom h (some a.1) rest

structure Holds (h : Arena α) (s : Spine α) : Prop where
  stored : StoredFrom h (kids s) s
  nodup : (addrs s).Nodup

theorem StoredFrom.congr {h h' : Arena α} {child : Option Nat} {s : Spine α}
    (hEq : ∀ a ∈ addrs s, h'[a]? = h[a]?) (hs : StoredFrom h child s) :
    StoredFrom h' child s := by
  induction s generalizing child with
  | nil => trivial
  | cons frame rest ih =>
    obtain ⟨a, k⟩ := frame
    obtain ⟨hCell, hk, hRest⟩ := hs
    refine ⟨?_, hk.congr ?_, ih ?_ hRest⟩
    · rw [hEq a.1 (by simp [addrs]), hCell]
    · intro b hb
      exact hEq b (by simp [addrs, hb])
    · intro b hb
      exact hEq b (by simp [addrs, hb])

theorem StoredFrom.lt {h : Arena α} {child : Option Nat} {s : Spine α}
    (hs : StoredFrom h child s) : ∀ a ∈ addrs s, a < h.length := by
  induction s generalizing child with
  | nil => simp [addrs]
  | cons frame rest ih =>
    obtain ⟨a, k⟩ := frame
    obtain ⟨hCell, hk, hRest⟩ := hs
    intro b hb
    simp only [addrs, List.mem_cons, List.mem_append] at hb
    rcases hb with rfl | hb | hb
    · exact (List.getElem?_eq_some_iff.mp hCell).1
    · exact hk.lt b hb
    · exact ih hRest b hb

theorem bottom_mem (frame : (Nat × α) × Located α) (rest : Spine α) :
    ∃ b ∈ addrs (frame :: rest), bottom (frame :: rest) = some b := by
  induction rest generalizing frame with
  | nil => exact ⟨frame.1.1, by simp [addrs], rfl⟩
  | cons next rest ih =>
    obtain ⟨b, hMem, hBottom⟩ := ih next
    exact ⟨b, List.mem_cons_of_mem _ (List.mem_append_right _ hMem), hBottom⟩

/-- The outermost address does not depend on the finished children. -/
theorem bottom_kids (a : Nat × α) (k l : Located α) (rest : Spine α) :
    bottom ((a, k) :: rest) = bottom ((a, l) :: rest) := by
  cases rest <;> rfl

theorem Holds.nil (h : Arena α) : Holds h [] := ⟨trivial, List.nodup_nil⟩

theorem Holds.fresh {h : Arena α} {s : Spine α} (hs : Holds h s) : h.length ∉ addrs s :=
  fun hMem => Nat.lt_irrefl _ (hs.stored.lt _ hMem)

theorem Holds.cell {h : Arena α} {a : Nat × α} {k : Located α} {rest : Spine α}
    (hs : Holds h ((a, k) :: rest)) : h[a.1]? = some ⟨a.2, top rest, kids rest, k.ptr⟩ :=
  hs.stored.1

/-- The addresses of one frame and of the frames outside it do not meet. -/
theorem Holds.split {h : Arena α} {a : Nat × α} {k : Located α} {rest : Spine α}
    (hs : Holds h ((a, k) :: rest)) :
    a.1 ∉ k.addrs ∧ a.1 ∉ addrs rest ∧ k.addrs.Nodup ∧ (addrs rest).Nodup ∧
      ∀ b ∈ k.addrs, b ∉ addrs rest := by
  have hNodup := hs.nodup
  simp only [addrs, List.nodup_cons, List.mem_append, not_or, List.nodup_append] at hNodup
  obtain ⟨⟨hk, hr⟩, hkn, hrn, hDisj⟩ := hNodup
  exact ⟨hk, hr, hkn, hrn, fun b hb hb' => hDisj b hb b hb' rfl⟩

/-- A new innermost open node. -/
theorem Holds.create_open {h : Arena α} {s : Spine α} (hs : Holds h s) (d : α) :
    Holds (create h (top s) d) (((h.length, d), .nil) :: s) := by
  have hFresh := hs.fresh
  refine ⟨?_, ?_⟩
  · cases s with
    | nil => exact ⟨create_fresh_root h d, trivial, trivial⟩
    | cons frame rest =>
      obtain ⟨a, k⟩ := frame
      obtain ⟨hk, hr, -, -, -⟩ := hs.split
      have hOld : ∀ b ∈ addrs ((a, k) :: rest), b ≠ a.1 →
          (create h (some a.1) d)[b]? = h[b]? := fun b hb hNe =>
        create_other (hs.stored.lt b hb) (fun he => hNe (Option.some.inj he).symm) d
      refine ⟨create_fresh hs.cell d, trivial, create_parent hs.cell d, ?_, ?_⟩
      · exact hs.stored.2.1.congr fun b hb =>
          hOld b (by simp [addrs, hb]) (ne_of_mem_of_not_mem hb hk)
      · exact hs.stored.2.2.congr fun b hb =>
          hOld b (by simp [addrs, hb]) (ne_of_mem_of_not_mem hb hr)
  · simp only [addrs, Forest.addrs, List.nil_append, List.nodup_cons]
    exact ⟨hFresh, hs.nodup⟩

/-- Closing the innermost node writes nothing: the links are already in place. -/
theorem Holds.close {h : Arena α} {a b : Nat × α} {k l : Located α} {rest : Spine α}
    (hs : Holds h ((a, k) :: (b, l) :: rest)) : Holds h ((b, .node a k l) :: rest) := by
  obtain ⟨hCell, hk, hb, hl, hRest⟩ := hs.stored
  refine ⟨⟨hb, ⟨hCell, hk, hl⟩, hRest⟩, ?_⟩
  refine (List.Perm.nodup_iff ?_).mp hs.nodup
  simp only [addrs, Forest.addrs]
  grind

/-- A new finished child of the innermost open node. -/
theorem Holds.create_leaf {h : Arena α} {a : Nat × α} {k : Located α} {rest : Spine α}
    (hs : Holds h ((a, k) :: rest)) (d : α) :
    Holds (create h (some a.1) d) ((a, .node (h.length, d) .nil k) :: rest) :=
  (hs.create_open d).close

/-- Overwriting the data of the innermost open node. -/
theorem Holds.setTop {h : Arena α} {a : Nat × α} {k : Located α} {rest : Spine α}
    (hs : Holds h ((a, k) :: rest)) (d : α) : Holds (setData h a.1 d) (((a.1, d), k) :: rest) := by
  obtain ⟨hk, hr, -, -, -⟩ := hs.split
  refine ⟨⟨setData_self hs.cell d, ?_, ?_⟩, hs.nodup⟩
  · exact hs.stored.2.1.congr fun b hb => setData_other (ne_of_mem_of_not_mem hb hk) d
  · exact hs.stored.2.2.congr fun b hb => setData_other (ne_of_mem_of_not_mem hb hr) d

/-- Overwriting the data of the newest finished child. -/
theorem Holds.setChild {h : Arena α} {a b : Nat × α} {c s : Located α} {rest : Spine α}
    (hs : Holds h ((a, .node b c s) :: rest)) (d : α) :
    Holds (setData h b.1 d) ((a, .node (b.1, d) c s) :: rest) := by
  obtain ⟨ha, -, hkn, -, hDisj⟩ := hs.split
  obtain ⟨hCell, ⟨hb, hc, hsib⟩, hRest⟩ := hs.stored
  simp only [Forest.addrs, List.nodup_cons, List.mem_append, not_or] at hkn
  refine ⟨⟨?_, ⟨setData_self hb d, ?_, ?_⟩, ?_⟩, hs.nodup⟩
  · rw [setData_other (fun he => ha (by simp [Forest.addrs, he])) d]
    exact hCell
  · exact hc.congr fun x hx => setData_other (ne_of_mem_of_not_mem hx hkn.1.1) d
  · exact hsib.congr fun x hx => setData_other (ne_of_mem_of_not_mem hx hkn.1.2) d
  · exact hRest.congr fun x hx =>
      setData_other (ne_of_mem_of_not_mem hx (hDisj b.1 (by simp [Forest.addrs]))) d

/-- A spine with one frame is a stored tree. -/
theorem Holds.represents {h : Arena α} {a : Nat × α} {k : Located α} (hs : Holds h [(a, k)]) :
    Represents h none (some a.1) (.node a.2 k.erase .nil) := by
  refine ⟨.node a k .nil, rfl, rfl, ⟨hs.cell, hs.stored.2.1, trivial⟩, ?_⟩
  simpa [addrs, Forest.addrs] using hs.nodup

end Spine

end LinkedForest
