import Utu.Lib.LinkedForest

/-!
# Child lists and parent links

The children of a cell are what its child link and the sibling links behind it
lead to. An arena is well linked when the parent link of every cell says in whose
list it is. The operations that put a cell into a list keep this when the cell
was in none before.
-/

namespace LinkedForest
set_option autoImplicit false

universe u
variable {α : Type u} {h h' : Arena α}

/-- Following sibling links from `q` leads to `c`. -/
inductive Listed (h : Arena α) : Option Nat → Nat → Prop
  | here (c : Nat) : Listed h (some c) c
  | later {b c : Nat} {cell : Cell α} (hCell : h[b]? = some cell) (hRest : Listed h cell.sibling c) :
      Listed h (some b) c

def ChildOf (h : Arena α) (p c : Nat) : Prop := ∃ cell, h[p]? = some cell ∧ Listed h cell.child c

structure WellLinked (h : Arena α) : Prop where
  range : ∀ {a b : Nat}, Link h a b → b < h.length
  parent : ∀ {c p : Nat} {cell : Cell α}, h[c]? = some cell → (cell.parent = some p ↔ ChildOf h p c)

/-- Only the sibling links along a list matter to it. -/
theorem Listed.iff_of_same {q : Option Nat}
    (hSame : ∀ x, Listed h q x → (h'[x]?).map Cell.sibling = (h[x]?).map Cell.sibling) {c : Nat} :
    Listed h' q c ↔ Listed h q c := by
  constructor
  · intro hc
    induction hc with
    | here c => exact .here c
    | @later b c cell' hCell' _ ih =>
      have hHere := hSame b (.here b)
      rw [hCell'] at hHere
      obtain ⟨cell, hCell, hSib⟩ := Option.map_eq_some_iff.mp hHere.symm
      rw [← hSib] at ih
      exact .later hCell (ih fun x hx => hSame x (.later hCell hx))
  · intro hc
    induction hc with
    | here c => exact .here c
    | @later b c cell hCell _ ih =>
      have hHere := hSame b (.here b)
      rw [hCell] at hHere
      obtain ⟨cell', hCell', hSib⟩ := Option.map_eq_some_iff.mp hHere
      have hRest := ih fun x hx => hSame x (.later hCell hx)
      rw [← hSib] at hRest
      exact .later hCell' hRest

theorem ChildOf.lt_left {p c : Nat} (hc : ChildOf h p c) : p < h.length := by
  obtain ⟨cell, hCell, -⟩ := hc
  exact (List.getElem?_eq_some_iff.mp hCell).1

theorem childOf_iff {p : Nat} {cell : Cell α} (hCell : h[p]? = some cell) {c : Nat} :
    ChildOf h p c ↔ Listed h cell.child c := by
  constructor
  · rintro ⟨cell', hCell', hListed⟩
    rw [hCell] at hCell'
    cases hCell'
    exact hListed
  · intro hListed
    exact ⟨cell, hCell, hListed⟩

theorem not_listed_none {c : Nat} : ¬Listed h none c := by
  intro hc
  cases hc

/-- The lists of a cell whose child link stays, along cells whose sibling links stay. -/
theorem ChildOf.iff_of_same {p : Nat} (hChild : (h'[p]?).map Cell.child = (h[p]?).map Cell.child)
    (hSame : ∀ x, ChildOf h p x → (h'[x]?).map Cell.sibling = (h[x]?).map Cell.sibling) {c : Nat} :
    ChildOf h' p c ↔ ChildOf h p c := by
  cases hCell : h[p]? with
  | none =>
    rw [hCell] at hChild
    have hNone : h'[p]? = none := Option.map_eq_none_iff.mp hChild
    constructor
    · rintro ⟨cell, hCell', -⟩
      rw [hNone] at hCell'
      cases hCell'
    · rintro ⟨cell, hCell', -⟩
      rw [hCell] at hCell'
      cases hCell'
  | some cell =>
    rw [hCell] at hChild
    obtain ⟨cell', hCell', hKid⟩ := Option.map_eq_some_iff.mp hChild
    rw [childOf_iff hCell', childOf_iff hCell, hKid]
    exact Listed.iff_of_same fun x hx => hSame x ((childOf_iff hCell).mpr hx)

namespace WellLinked

theorem listed_lt (hh : WellLinked h) {q : Option Nat} (hq : ∀ b, q = some b → b < h.length) {c : Nat}
    (hc : Listed h q c) : c < h.length := by
  induction hc with
  | here c => exact hq c rfl
  | later hCell _ ih => exact ih fun x hx => hh.range ⟨_, hCell, .inl hx⟩

theorem childOf_lt (hh : WellLinked h) {p c : Nat} (hc : ChildOf h p c) : c < h.length := by
  obtain ⟨cell, hCell, hListed⟩ := hc
  exact hh.listed_lt (fun b hb => hh.range ⟨cell, hCell, .inr hb⟩) hListed

theorem parent_lt (hh : WellLinked h) {c p : Nat} {cell : Cell α} (hCell : h[c]? = some cell)
    (hParent : cell.parent = some p) : p < h.length :=
  ((hh.parent hCell).mp hParent).lt_left

/-- A cell without a parent is in no list. -/
theorem not_childOf (hh : WellLinked h) {c : Nat} {cell : Cell α} (hCell : h[c]? = some cell)
    (hFree : cell.parent = none) (p : Nat) : ¬ChildOf h p c := by
  intro hc
  rw [(hh.parent hCell).mpr hc] at hFree
  cases hFree

theorem nil : WellLinked ([] : Arena α) := by
  constructor
  · rintro a b ⟨cell, hCell, -⟩
    cases hCell
  · intro c p cell hCell
    cases hCell

/-! ## New cells -/

theorem getElem?_create_lt {parent : Option Nat} {x : Nat} (hx : x < h.length) (d : α) :
    (LinkedForest.create h parent d)[x]? =
      (h[x]?).map fun cell => if parent = some x then { cell with child := some h.length } else cell := by
  by_cases hParent : parent = some x
  · subst hParent
    have hCell : h[x]? = some h[x] := List.getElem?_eq_getElem hx
    rw [create_parent hCell, hCell]
    simp
  · rw [create_other hx hParent]
    simp [hParent]

theorem getElem?_create_length (parent : Option Nat) (d : α) :
    (LinkedForest.create h parent d)[h.length]? =
      some ⟨d, parent, parent.bind fun p => (h[p]?).bind Cell.child, none⟩ := by
  cases parent <;> simp [LinkedForest.create]

theorem sibling_create {parent : Option Nat} {x : Nat} (hx : x < h.length) (d : α) :
    ((LinkedForest.create h parent d)[x]?).map Cell.sibling = (h[x]?).map Cell.sibling := by
  rw [getElem?_create_lt hx, Option.map_map]
  apply Option.map_congr
  intro cell _
  simp only [Function.comp_apply]
  split <;> rfl

theorem childOf_create_old (hh : WellLinked h) {parent : Option Nat} {q : Nat} (hq : q < h.length)
    (hOther : parent ≠ some q) (d : α) {c : Nat} :
    ChildOf (LinkedForest.create h parent d) q c ↔ ChildOf h q c := by
  apply ChildOf.iff_of_same
  · rw [create_other hq hOther]
  · intro x hx
    exact sibling_create (hh.childOf_lt hx) d

theorem childOf_create_parent (hh : WellLinked h) {p : Nat} (hp : p < h.length) (d : α) {c : Nat} :
    ChildOf (LinkedForest.create h (some p) d) p c ↔ c = h.length ∨ ChildOf h p c := by
  have hCell : h[p]? = some h[p] := List.getElem?_eq_getElem hp
  have hNew := create_fresh hCell d
  have hOld : ∀ x, Listed (LinkedForest.create h (some p) d) h[p].child x ↔ Listed h h[p].child x := by
    intro x
    apply Listed.iff_of_same
    intro y hy
    exact sibling_create (hh.childOf_lt ((childOf_iff hCell).mpr hy)) d
  rw [childOf_iff (create_parent hCell d), childOf_iff hCell, ← hOld c]
  constructor
  · intro hListed
    cases hListed with
    | here => exact .inl rfl
    | later hAt hRest =>
      rw [hNew] at hAt
      cases hAt
      exact .inr hRest
  · rintro (rfl | hRest)
    · exact .here _
    · exact .later hNew hRest

theorem childOf_create_iff (hh : WellLinked h) {parent : Option Nat} (hParent : ∀ p, parent = some p → p < h.length)
    (d : α) {q c : Nat} :
    ChildOf (LinkedForest.create h parent d) q c ↔ (parent = some q ∧ c = h.length) ∨ ChildOf h q c := by
  rcases Nat.lt_trichotomy q h.length with hq | rfl | hq
  · by_cases hSame : parent = some q
    · subst hSame
      rw [childOf_create_parent hh hq]
      simp
    · rw [childOf_create_old hh hq hSame]
      simp [hSame]
  · have hNot : ¬ChildOf h h.length c := fun hc => Nat.lt_irrefl _ hc.lt_left
    have hNew : ¬parent = some h.length := fun hp => Nat.lt_irrefl _ (hParent _ hp)
    rw [childOf_iff (getElem?_create_length parent d)]
    simp [hNot, hNew, not_listed_none]
  · constructor
    · intro hc
      have hLt := hc.lt_left
      rw [length_create] at hLt
      omega
    · rintro (⟨hp, -⟩ | hc)
      · exact absurd (hParent q hp) (by omega)
      · exact absurd hc.lt_left (by omega)

/-- A new cell goes to the front of the list of its parent. -/
theorem create (hh : WellLinked h) {parent : Option Nat} (hParent : ∀ p, parent = some p → p < h.length) (d : α) :
    WellLinked (LinkedForest.create h parent d) := by
  constructor
  · rintro a b ⟨cell, hCell, hLink⟩
    rw [length_create]
    have ha : a < h.length + 1 := by
      rw [← length_create h parent d]
      exact (List.getElem?_eq_some_iff.mp hCell).1
    rcases Nat.lt_succ_iff_lt_or_eq.mp ha with ha | rfl
    · rw [getElem?_create_lt ha] at hCell
      obtain ⟨old, hOld, rfl⟩ := Option.map_eq_some_iff.mp hCell
      split at hLink
      · rcases hLink with hSib | hKid
        · exact Nat.lt_succ_of_lt (hh.range ⟨old, hOld, .inl hSib⟩)
        · cases hKid
          exact Nat.lt_succ_self _
      · exact Nat.lt_succ_of_lt (hh.range ⟨old, hOld, hLink⟩)
    · rw [getElem?_create_length] at hCell
      cases hCell
      rcases hLink with hSib | hKid
      · obtain ⟨p, -, hKid⟩ := Option.bind_eq_some_iff.mp hSib
        obtain ⟨old, hOld, hKid⟩ := Option.bind_eq_some_iff.mp hKid
        exact Nat.lt_succ_of_lt (hh.range ⟨old, hOld, .inr hKid⟩)
      · cases hKid
  · intro c p cell hCell
    rw [childOf_create_iff hh hParent]
    have hc : c < h.length + 1 := by
      rw [← length_create h parent d]
      exact (List.getElem?_eq_some_iff.mp hCell).1
    rcases Nat.lt_succ_iff_lt_or_eq.mp hc with hc | rfl
    · rw [getElem?_create_lt hc] at hCell
      obtain ⟨old, hOld, hEq⟩ := Option.map_eq_some_iff.mp hCell
      have hSame : cell.parent = old.parent := by
        rw [← hEq]
        split <;> rfl
      rw [hSame, hh.parent hOld]
      simp [Nat.ne_of_lt hc]
    · have hNot : ¬ChildOf h p h.length := fun hc => Nat.lt_irrefl _ (hh.childOf_lt hc)
      rw [getElem?_create_length] at hCell
      cases hCell
      simp [hNot]

/-! ## Other writes -/

theorem getElem?_setData (a : Nat) (d : α) (x : Nat) :
    (LinkedForest.setData h a d)[x]? = (h[x]?).map fun cell => if a = x then { cell with data := d } else cell := by
  rw [LinkedForest.setData, List.getElem?_modify]
  rfl

/-- Data and links do not meet. -/
theorem setData (hh : WellLinked h) (a : Nat) (d : α) : WellLinked (LinkedForest.setData h a d) := by
  have hLists : ∀ {p c : Nat}, ChildOf (LinkedForest.setData h a d) p c ↔ ChildOf h p c := by
    intro p c
    apply ChildOf.iff_of_same
    · rw [getElem?_setData, Option.map_map]
      apply Option.map_congr
      intro cell _
      simp only [Function.comp_apply]
      split <;> rfl
    · intro x _
      rw [getElem?_setData, Option.map_map]
      apply Option.map_congr
      intro cell _
      simp only [Function.comp_apply]
      split <;> rfl
  constructor
  · rintro x b ⟨cell, hCell, hLink⟩
    rw [getElem?_setData] at hCell
    obtain ⟨old, hOld, rfl⟩ := Option.map_eq_some_iff.mp hCell
    rw [length_setData]
    apply hh.range
    refine ⟨old, hOld, ?_⟩
    split at hLink <;> exact hLink
  · intro c p cell hCell
    rw [getElem?_setData] at hCell
    obtain ⟨old, hOld, hEq⟩ := Option.map_eq_some_iff.mp hCell
    have hSame : cell.parent = old.parent := by
      rw [← hEq]
      split <;> rfl
    rw [hSame, hLists, hh.parent hOld]

end WellLinked

/-- Put the cell `c` in front of the children of `p`. -/
def attach (h : Arena α) (p c : Nat) : Arena α :=
  let child := (h[p]?).bind Cell.child
  ((h.modify c fun cell => { cell with sibling := child }).modify p
    fun cell => { cell with child := some c }).modify c fun cell => { cell with parent := some p }

/-- Let the sibling link of `c` point to `b`. -/
def setSibling (h : Arena α) (c b : Nat) : Arena α := h.modify c fun cell => { cell with sibling := some b }

namespace WellLinked

theorem getElem?_attach (p c x : Nat) :
    (attach h p c)[x]? = (h[x]?).map fun cell =>
      ⟨cell.data, if x = c then some p else cell.parent,
        if x = c then (h[p]?).bind Cell.child else cell.sibling, if x = p then some c else cell.child⟩ := by
  simp only [attach, List.getElem?_modify]
  cases h[x]? with
  | none => rfl
  | some cell =>
    by_cases hc : c = x <;> by_cases hp : p = x <;> simp [hc, hp, eq_comm]

theorem length_attach (p c : Nat) : (attach h p c).length = h.length := by simp [attach]

section Attach
variable {p c : Nat} {pc cc : Cell α} (hh : WellLinked h) (hp : h[p]? = some pc) (hc : h[c]? = some cc)
  (hFree : cc.parent = none)
include hh hc hFree

theorem sibling_attach {q x : Nat} (hx : ChildOf h q x) :
    ((attach h p c)[x]?).map Cell.sibling = (h[x]?).map Cell.sibling := by
  have hNe : x ≠ c := by
    rintro rfl
    exact hh.not_childOf hc hFree q hx
  rw [getElem?_attach, Option.map_map]
  apply Option.map_congr
  intro cell _
  simp [hNe]

include hp

theorem childOf_attach_iff {q x : Nat} :
    ChildOf (attach h p c) q x ↔ (q = p ∧ x = c) ∨ ChildOf h q x := by
  by_cases hq : q = p
  · subst hq
    have hCell : (attach h q c)[q]? = some ⟨pc.data, if q = c then some q else pc.parent,
        if q = c then (h[q]?).bind Cell.child else pc.sibling, some c⟩ := by
      rw [getElem?_attach, hp]
      simp
    have hNew : (attach h q c)[c]? = some ⟨cc.data, some q, pc.child, if c = q then some c else cc.child⟩ := by
      rw [getElem?_attach, hc, hp]
      simp
    have hOld : Listed (attach h q c) pc.child x ↔ Listed h pc.child x := by
      apply Listed.iff_of_same
      intro y hy
      exact sibling_attach hh hc hFree ((childOf_iff hp).mpr hy)
    rw [childOf_iff hCell, childOf_iff hp, ← hOld]
    constructor
    · intro hListed
      cases hListed with
      | here => exact .inl ⟨rfl, rfl⟩
      | later hAt hRest =>
        rw [hNew] at hAt
        cases hAt
        exact .inr hRest
    · rintro (⟨-, rfl⟩ | hRest)
      · exact .here _
      · exact .later hNew hRest
  · have hSame : ChildOf (attach h p c) q x ↔ ChildOf h q x := by
      apply ChildOf.iff_of_same
      · rw [getElem?_attach, Option.map_map]
        apply Option.map_congr
        intro cell _
        simp [hq]
      · intro y hy
        exact sibling_attach hh hc hFree hy
    rw [hSame]
    simp [hq]

theorem attach : WellLinked (LinkedForest.attach h p c) := by
  constructor
  · rintro a b ⟨cell, hCell, hLink⟩
    rw [getElem?_attach] at hCell
    obtain ⟨old, hOld, rfl⟩ := Option.map_eq_some_iff.mp hCell
    rw [length_attach]
    rcases hLink with hSib | hKid
    · dsimp only at hSib
      split at hSib
      · rw [hp] at hSib
        exact hh.range ⟨pc, hp, .inr hSib⟩
      · exact hh.range ⟨old, hOld, .inl hSib⟩
    · dsimp only at hKid
      split at hKid
      · cases hKid
        exact (List.getElem?_eq_some_iff.mp hc).1
      · exact hh.range ⟨old, hOld, .inr hKid⟩
  · intro x q cell hCell
    rw [getElem?_attach] at hCell
    obtain ⟨old, hOld, rfl⟩ := Option.map_eq_some_iff.mp hCell
    rw [childOf_attach_iff hh hp hc hFree]
    by_cases hx : x = c
    · subst hx
      have hNot := hh.not_childOf hc hFree q
      simp [hNot, eq_comm]
    · simp [hx, hh.parent hOld]

end Attach

/-- The sibling link of a cell in no list is free. -/
theorem setSibling (hh : WellLinked h) {c b : Nat} {cc : Cell α} (hc : h[c]? = some cc) (hFree : cc.parent = none)
    (hb : b < h.length) : WellLinked (LinkedForest.setSibling h c b) := by
  have hCells : ∀ x, (LinkedForest.setSibling h c b)[x]? =
      (h[x]?).map fun cell => if c = x then { cell with sibling := some b } else cell := by
    intro x
    rw [LinkedForest.setSibling, List.getElem?_modify]
    rfl
  have hLists : ∀ {p x : Nat}, ChildOf (LinkedForest.setSibling h c b) p x ↔ ChildOf h p x := by
    intro p x
    apply ChildOf.iff_of_same
    · rw [hCells, Option.map_map]
      apply Option.map_congr
      intro cell _
      simp only [Function.comp_apply]
      split <;> rfl
    · intro y hy
      have hNe : c ≠ y := by
        rintro rfl
        exact hh.not_childOf hc hFree p hy
      rw [hCells]
      simp [hNe]
  constructor
  · rintro x y ⟨cell, hCell, hLink⟩
    rw [hCells] at hCell
    obtain ⟨old, hOld, rfl⟩ := Option.map_eq_some_iff.mp hCell
    rw [LinkedForest.setSibling, List.length_modify]
    split at hLink
    · rcases hLink with hSib | hKid
      · cases hSib
        exact hb
      · exact hh.range ⟨old, hOld, .inr hKid⟩
    · exact hh.range ⟨old, hOld, hLink⟩
  · intro x q cell hCell
    rw [hCells] at hCell
    obtain ⟨old, hOld, hEq⟩ := Option.map_eq_some_iff.mp hCell
    have hSame : cell.parent = old.parent := by
      rw [← hEq]
      split <;> rfl
    rw [hSame, hLists, hh.parent hOld]

end WellLinked

end LinkedForest
