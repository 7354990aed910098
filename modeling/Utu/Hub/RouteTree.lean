import Utu.Hub.Routing

/-!
# The shape of the routing tree

A route comes after its parent, and the children of a route are sorted by their
names, none of which holds a NUL. Extending the tree leaves all that is there in
its place, and what lies before the route that it starts at does not change at
all.
-/

namespace Utu.Hub.Routing
open Comparator Outcome LinkedForest
set_option autoImplicit false

variable {C D : Type} {lib : HeapLib} {place : Nat → Nat} {s s' : Routing C}

structure Valid (s : Routing C) : Prop where
  heaps : ∀ {i : Nat} {route : Route C}, s.routes[i]? = some route → route.members.Valid ∧ route.children.Valid
  forward : ∀ {i : Nat} {route : Route C}, s.routes[i]? = some route →
    ∀ c ∈ route.children.members, i < c ∧ c < s.routes.length
  names : ∀ {i : Nat} {route : Route C}, s.routes[i]? = some route → 0 ∉ route.name
  sorted : ∀ {i : Nat} {route : Route C}, s.routes[i]? = some route →
    Sorted s.childrenCompare route.children.members
  links : ∀ {m : Nat} {h : Heap Nat}, s.members.lookup m = some h →
    h.Valid ∧ ∀ r ∈ h.members, r < s.routes.length

theorem getElem?_routes {i : Nat} (hLt : i < s.routes.length) : ∃ route, s.routes[i]? = some route :=
  ⟨_, List.getElem?_eq_getElem hLt⟩

theorem lt_of_getElem? {i : Nat} {route : Route C} (h : s.routes[i]? = some route) : i < s.routes.length :=
  (List.getElem?_eq_some_iff.mp h).1

theorem name_eq {i : Nat} {route : Route C} (h : s.routes[i]? = some route) : s.name i = some route.name := by
  rw [name, h]
  rfl

theorem route_eq {i : Nat} {route : Route C} (h : s.routes[i]? = some route) : s.route i = .ok route := by
  rw [Routing.route, h]
  rfl

theorem getElem?_setRoute_self {i : Nat} (hLt : i < s.routes.length) (route : Route C) :
    (s.setRoute i route).routes[i]? = some route := List.getElem?_set_self hLt

theorem getElem?_setRoute_ne {i j : Nat} (hNe : j ≠ i) (route : Route C) :
    (s.setRoute i route).routes[j]? = s.routes[j]? := List.getElem?_set_ne (Ne.symm hNe)

theorem name_setRoute {i : Nat} {route route' : Route C} (hRoute : s.routes[i]? = some route)
    (hName : route'.name = route.name) (j : Nat) : (s.setRoute i route').name j = s.name j := by
  by_cases hj : j = i
  · subst hj
    rw [name_eq (getElem?_setRoute_self (lt_of_getElem? hRoute) route'), name_eq hRoute, hName]
  · rw [Routing.name, Routing.name, getElem?_setRoute_ne hj]

/-! ## Finding a child -/

theorem bstrcmp_eq_lex {a : Bytes} (hNul : 0 ∉ a) (b : Bytes) :
    bstrcmp (some a) (some b) = lex schar a b := bstrcmpLoop_eq_lex hNul b

/-- The name as it is stored, and a NULL name is equal to none. -/
theorem bstrcmp_eq_zero {a : Bytes} (hNul : 0 ∉ a) (name : Option Bytes) :
    bstrcmp (some a) name = 0 ↔ some a = name := by
  cases name with
  | none => simp [bstrcmp]
  | some b =>
    rw [bstrcmp_eq_lex hNul, lex_eq_zero schar_injective, Option.some.injEq]

/-- The comparator orders routes whose names hold no NUL. -/
theorem childrenCompare_preorders {S : Set Nat} (hNames : ∀ x ∈ S, ∃ a, s.name x = some a ∧ 0 ∉ a) :
    Preorders s.childrenCompare S := by
  have hLex : ∀ x ∈ S, ∀ y ∈ S,
      s.childrenCompare x y = lex schar ((s.name x).getD []) ((s.name y).getD []) := by
    intro x hx y hy
    obtain ⟨a, ha, hNul⟩ := hNames x hx
    obtain ⟨b, hb, -⟩ := hNames y hy
    rw [childrenCompare, ha, hb, bstrcmp_eq_lex hNul]
    rfl
  have hPre := (lex_orders schar_injective (Set.univ : Set Bytes)).toPreorders
  constructor
  · intro x y hx hy
    rw [hLex x hx y hy, hLex y hy x hx]
    exact hPre.flip trivial trivial
  · intro x y z hx hy hz
    rw [hLex x hx y hy, hLex y hy z hz, hLex x hx z hz]
    exact hPre.trans trivial trivial trivial

theorem Valid.name_of_child (hValid : s.Valid) {i c : Nat} {route : Route C}
    (hRoute : s.routes[i]? = some route) (hc : c ∈ route.children.members) :
    ∃ a, s.name c = some a ∧ 0 ∉ a := by
  obtain ⟨child, hChild⟩ := getElem?_routes (hValid.forward hRoute c hc).2
  exact ⟨child.name, name_eq hChild, hValid.names hChild⟩

theorem Valid.split (hValid : s.Valid) {i : Nat} {route : Route C} (hRoute : s.routes[i]? = some route)
    (name : Option Bytes) : Split (fun x => bstrcmp (s.name x) name) route.children.members := by
  cases name with
  | none =>
    apply List.pairwise_of_forall
    intro x y
    cases s.name x <;> cases s.name y <;> simp [bstrcmp]
  | some b =>
    apply (hValid.sorted hRoute).imp_of_mem
    intro x y hx hy hLe
    obtain ⟨ax, hNameX, hNulX⟩ := hValid.name_of_child hRoute hx
    obtain ⟨ay, hNameY, hNulY⟩ := hValid.name_of_child hRoute hy
    rw [childrenCompare, hNameX, hNameY, bstrcmp_eq_lex hNulX] at hLe
    beta_reduce
    rw [hNameX, hNameY, bstrcmp_eq_lex hNulX, bstrcmp_eq_lex hNulY]
    have hOrder := (lex_orders schar_injective (Set.univ : Set Bytes)).toPreorders
    have hPair : Sorted (lex schar) [ax, ay] := by simpa [Sorted] using hLe
    have hSplit : Split (lex schar · b) [ax, ay] := hPair.split hOrder (fun _ _ => trivial) trivial
    simpa [Split] using hSplit

/-- A child of this name, or that there is none. -/
def ChildNamed (s : Routing C) (route : Route C) (name : Option Bytes) : Option Nat → Prop
  | some c => c ∈ route.children.members ∧ s.name c = name
  | none => ∀ c ∈ route.children.members, s.name c ≠ name

theorem Valid.findChild_spec (hValid : s.Valid) {parent : Nat} {route : Route C}
    (hRoute : s.routes[parent]? = some route) (name : Option Bytes) :
    ∃ c, s.findChild parent name = .ok c ∧ ChildNamed s route name c := by
  have hZero : ∀ c ∈ route.children.members, (bstrcmp (s.name c) name = 0 ↔ s.name c = name) := by
    intro c hc
    obtain ⟨a, hName, hNul⟩ := hValid.name_of_child hRoute hc
    rw [hName, bstrcmp_eq_zero hNul]
  obtain ⟨i, hFind, hFound⟩ := Heap.find_spec (hValid.heaps hRoute).2
    fun x => bstrcmp (s.name x) name
  refine ⟨_, by rw [findChild, bind_of_ok (route_eq hRoute), bind_of_ok hFind]; rfl, ?_⟩
  rcases hFound with ⟨c, hc, hSame⟩ | ⟨rfl, hAbsent⟩
  · have hMem := List.mem_of_getElem? hc
    obtain ⟨hLt, -⟩ := List.getElem?_eq_some_iff.mp hc
    rw [if_pos (show route.children.valid i = true from decide_eq_true hLt), hc]
    exact ⟨hMem, (hZero c hMem).mp hSame⟩
  · rw [if_neg (show ¬route.children.valid route.children.last = true by simp [Heap.valid])]
    intro c hc
    exact (hZero c hc).not.mp (hAbsent (hValid.split hRoute name) c hc)

/-! ## A new child -/

/-- What `Route_alloc` stops at if there is no name. -/
def noName : Fault := .assertFailed "r->name != NULL && \"memory alloc failure\""

/-- `s'` is `s` with a new route of this name below `parent`. -/
structure Grown (s : Routing C) (parent : Nat) (name : Bytes) (s' : Routing C) : Prop where
  length : s'.routes.length = s.routes.length + 1
  fresh : s'.routes[s.routes.length]? = some ⟨name, none, .create, .create⟩
  below : ∃ route children, s.routes[parent]? = some route ∧
    s'.routes[parent]? = some { route with children := children } ∧ children.Valid ∧
    children.members.Perm (s.routes.length :: route.children.members) ∧
    Sorted s'.childrenCompare children.members
  others : ∀ i, i ≠ parent → i < s.routes.length → s'.routes[i]? = s.routes[i]?
  members : s'.members = s.members
  errno : s'.errno = s.errno

theorem Grown.name_old {parent : Nat} {name : Bytes} (h : Grown s parent name s') {i : Nat}
    (hi : i < s.routes.length) : s'.name i = s.name i := by
  by_cases hParent : i = parent
  · obtain ⟨route, children, hOld, hNew, -⟩ := h.below
    subst hParent
    rw [name_eq hOld, name_eq hNew]
  · rw [Routing.name, Routing.name, h.others i hParent hi]

theorem Grown.name_new {parent : Nat} {name : Bytes} (h : Grown s parent name s') :
    s'.name s.routes.length = some name := name_eq h.fresh

/-- The routes of `s'` are those of `s`, but one has a new child. -/
theorem Grown.cases {parent : Nat} {name : Bytes} (h : Grown s parent name s') {i : Nat} {route' : Route C}
    (hRoute : s'.routes[i]? = some route') :
    (i = s.routes.length ∧ route' = ⟨name, none, .create, .create⟩) ∨
      ∃ route, s.routes[i]? = some route ∧ ∃ children, route' = { route with children := children } ∧
        (children = route.children ∨ (i = parent ∧ children.Valid ∧
          children.members.Perm (s.routes.length :: route.children.members) ∧
          Sorted s'.childrenCompare children.members)) := by
  have hLt := lt_of_getElem? hRoute
  rw [h.length] at hLt
  rcases Nat.lt_succ_iff_lt_or_eq.mp hLt with hOld | rfl
  · right
    by_cases hParent : i = parent
    · obtain ⟨route, children, hWas, hIs, hChildren⟩ := h.below
      subst hParent
      rw [hIs] at hRoute
      cases hRoute
      exact ⟨route, hWas, children, rfl, .inr ⟨rfl, hChildren⟩⟩
    · rw [h.others i hParent hOld] at hRoute
      exact ⟨route', hRoute, route'.children, rfl, .inl rfl⟩
  · left
    rw [h.fresh] at hRoute
    cases hRoute
    exact ⟨rfl, rfl⟩

theorem Grown.valid {parent : Nat} {name : Bytes} (h : Grown s parent name s') (hValid : s.Valid)
    (hNul : 0 ∉ name) : s'.Valid := by
  have hParent : parent < s.routes.length := by
    obtain ⟨route, -, hRoute, -⟩ := h.below
    exact lt_of_getElem? hRoute
  have hCompare : ∀ x y, x < s.routes.length → y < s.routes.length →
      s'.childrenCompare x y = s.childrenCompare x y := by
    intro x y hx hy
    rw [childrenCompare, childrenCompare, h.name_old hx, h.name_old hy]
  constructor
  · intro i route' hRoute
    rcases h.cases hRoute with ⟨-, rfl⟩ | ⟨route, hOld, children, rfl, rfl | ⟨-, hNew, -⟩⟩
    · exact ⟨Heap.create_valid, Heap.create_valid⟩
    · exact hValid.heaps hOld
    · exact ⟨(hValid.heaps hOld).1, hNew⟩
  · intro i route' hRoute c hc
    rw [h.length]
    rcases h.cases hRoute with ⟨-, rfl⟩ | ⟨route, hOld, children, rfl, rfl | ⟨rfl, -, hPerm, -⟩⟩
    · cases hc
    · have := hValid.forward hOld c hc
      omega
    · rcases List.mem_cons.mp (hPerm.mem_iff.mp hc) with rfl | hc
      · omega
      · have := hValid.forward hOld c hc
        omega
  · intro i route' hRoute
    rcases h.cases hRoute with ⟨-, rfl⟩ | ⟨route, hOld, children, rfl, -⟩
    · exact hNul
    · change 0 ∉ route.name
      exact hValid.names hOld
  · intro i route' hRoute
    rcases h.cases hRoute with ⟨-, rfl⟩ | ⟨route, hOld, children, rfl, rfl | ⟨-, -, -, hSorted⟩⟩
    · exact List.Pairwise.nil
    · apply (hValid.sorted hOld).imp_of_mem
      intro x y hx hy hLe
      rwa [hCompare x y (hValid.forward hOld x hx).2 (hValid.forward hOld y hy).2]
    · exact hSorted
  · intro m heap hHeap
    rw [h.members] at hHeap
    obtain ⟨hHeapValid, hRoutes⟩ := hValid.links hHeap
    refine ⟨hHeapValid, ?_⟩
    intro r hr
    have := hRoutes r hr
    rw [h.length]
    omega

theorem nul_not_mem_takeWhile (name : Bytes) : 0 ∉ name.takeWhile (· ≠ 0) := by
  intro h
  have := List.mem_takeWhile_imp h
  simp at this

theorem takeWhile_of_no_nul {name : Bytes} (hNul : 0 ∉ name) : name.takeWhile (· ≠ 0) = name := by
  rw [List.takeWhile_eq_self_iff]
  intro b hb
  exact decide_eq_true fun hZero => hNul (hZero ▸ hb)

/-- `Route_alloc` ends with a new child, or at the assertions. -/
theorem Valid.alloc_spec (hLib : lib.Sound) (hValid : s.Valid) {parent : Nat}
    (hParent : parent < s.routes.length) (name : Bytes) :
    Barring {noMemory} (s.alloc lib parent (some name)) fun r =>
      r.2 = s.routes.length ∧ Grown s parent (name.takeWhile (· ≠ 0)) r.1 := by
  obtain ⟨route, hRoute⟩ := getElem?_routes hParent
  generalize hStored : name.takeWhile (· ≠ 0) = stored
  have hNul : 0 ∉ stored := hStored ▸ nul_not_mem_takeWhile name
  let t : Routing C := { s with routes := s.routes ++ [⟨stored, none, .create, .create⟩] }
  have hRoot : s.allocRoot (some name) = .ok t := by
    rw [allocRoot, bfromcstr, Option.map_some, hStored]
    rfl
  have hOld : ∀ i, i < s.routes.length → t.routes[i]? = s.routes[i]? := fun i hi =>
    List.getElem?_append_left hi
  have hNew : t.routes[s.routes.length]? = some ⟨stored, none, .create, .create⟩ := by
    simp [t]
  have hRoute' : t.routes[parent]? = some route := (hOld parent hParent).trans hRoute
  have hOrder : Preorders t.childrenCompare {x | x ∈ s.routes.length :: route.children.members} := by
    apply childrenCompare_preorders
    intro x hx
    rcases List.mem_cons.mp hx with rfl | hx
    · exact ⟨stored, name_eq hNew, hNul⟩
    · have hLt := (hValid.forward hRoute x hx).2
      obtain ⟨child, hChild⟩ := getElem?_routes hLt
      exact ⟨child.name, name_eq ((hOld x hLt).trans hChild), hValid.names hChild⟩
  rw [alloc]
  simp only [bind_of_ok hRoot, bind_of_ok (route_eq hRoute')]
  apply (Heap.add_spec hLib (hValid.heaps hRoute).2 s.routes.length).bind
  intro children hAdded
  have hName := name_setRoute hRoute' (show ({ route with children := children } : Route C).name = _ from rfl)
  refine .pure ⟨rfl, ?_, ?_, ?_, ?_, rfl, rfl⟩
  · simp [setRoute, t]
  · exact (getElem?_setRoute_ne (by omega) _).trans hNew
  · refine ⟨route, children, hRoute, getElem?_setRoute_self (lt_of_getElem? hRoute') _, hAdded.valid,
      hAdded.perm, ?_⟩
    apply (hAdded.sorted hOrder).imp
    intro x y hLe
    rwa [childrenCompare, hName, hName]
  · intro i hi hLt
    exact (getElem?_setRoute_ne hi _).trans (hOld i hLt)

/-! ## Extending the tree -/

/-- The same route, perhaps with other children. -/
structure SameButChildren (route route' : Route C) : Prop where
  name : route'.name = route.name
  callback : route'.callback = route.callback
  members : route'.members = route.members

/-- `s'` has new routes without members, and new children from `start` on only. -/
structure Extends (start : Nat) (s s' : Routing C) : Prop where
  le : s.routes.length ≤ s'.routes.length
  before : ∀ i < start, s'.routes[i]? = s.routes[i]?
  old : ∀ {i : Nat} {route : Route C}, s.routes[i]? = some route →
    ∃ route', s'.routes[i]? = some route' ∧ SameButChildren route route'
  fresh : ∀ {i : Nat} {route : Route C}, s.routes.length ≤ i → s'.routes[i]? = some route →
    route.callback = none ∧ route.members = .create
  members : s'.members = s.members
  errno : s'.errno = s.errno

theorem Extends.refl (start : Nat) (s : Routing C) : Extends start s s where
  le := Nat.le_refl _
  before := fun _ _ => rfl
  old := fun h => ⟨_, h, rfl, rfl, rfl⟩
  fresh := by
    intro i route hi hRoute
    have := lt_of_getElem? hRoute
    omega
  members := rfl
  errno := rfl

theorem Extends.trans {start next : Nat} {t : Routing C} (h : Extends start s t) (h' : Extends next t s')
    (hLe : start ≤ next) : Extends start s s' where
  le := Nat.le_trans h.le h'.le
  before := fun i hi => (h'.before i (Nat.lt_of_lt_of_le hi hLe)).trans (h.before i hi)
  old := by
    intro i route hRoute
    obtain ⟨middle, hMiddle, hSame⟩ := h.old hRoute
    obtain ⟨route', hRoute', hSame'⟩ := h'.old hMiddle
    exact ⟨route', hRoute', hSame'.name.trans hSame.name, hSame'.callback.trans hSame.callback,
      hSame'.members.trans hSame.members⟩
  fresh := by
    intro i route hi hRoute
    rcases Nat.lt_or_ge i t.routes.length with hLt | hGe
    · obtain ⟨middle, hMiddle⟩ := getElem?_routes hLt
      obtain ⟨route', hEnd, hSame⟩ := h'.old hMiddle
      rw [hRoute] at hEnd
      cases hEnd
      rw [hSame.callback, hSame.members]
      exact h.fresh hi hMiddle
    · exact h'.fresh hGe hRoute
  members := h'.members.trans h.members
  errno := h'.errno.trans h.errno

theorem Extends.name {start : Nat} (h : Extends start s s') {i : Nat} (hi : i < s.routes.length) :
    s'.name i = s.name i := by
  obtain ⟨route, hRoute⟩ := getElem?_routes hi
  obtain ⟨route', hRoute', hSame⟩ := h.old hRoute
  rw [name_eq hRoute, name_eq hRoute', hSame.name]

theorem Grown.extends {parent : Nat} {name : Bytes} (h : Grown s parent name s') : Extends parent s s' where
  le := h.length ▸ Nat.le_succ _
  before := by
    intro i hi
    obtain ⟨route, -, hRoute, -⟩ := h.below
    exact h.others i (Nat.ne_of_lt hi) (hi.trans (lt_of_getElem? hRoute))
  old := by
    intro i route hRoute
    by_cases hi : i = parent
    · obtain ⟨route', children, hOld, hNew, -⟩ := h.below
      subst hi
      rw [hRoute] at hOld
      cases hOld
      exact ⟨_, hNew, rfl, rfl, rfl⟩
    · exact ⟨route, (h.others i hi (lt_of_getElem? hRoute)).trans hRoute, rfl, rfl, rfl⟩
  fresh := by
    intro i route hi hRoute
    rcases h.cases hRoute with ⟨-, rfl⟩ | ⟨route, hOld, -⟩
    · exact ⟨rfl, rfl⟩
    · have := lt_of_getElem? hOld
      omega
  members := h.members
  errno := h.errno

theorem Extends.findChild_before {start : Nat} (h : Extends start s s') (hValid : s.Valid) {parent : Nat}
    (hParent : parent < start) (name : Option Bytes) : s'.findChild parent name = s.findChild parent name := by
  have hRoute := h.before parent hParent
  cases hOld : s.routes[parent]? with
  | none =>
    have hNone : ∀ t : Routing C, t.routes[parent]? = none → t.route parent = .error .badPointer := by
      intro t ht
      rw [Routing.route, ht]
      rfl
    rw [findChild, findChild, bind_of_error (hNone s hOld), bind_of_error (hNone s' (hRoute.trans hOld))]
  | some route =>
    have hFind : (route.children.find fun x => bstrcmp (s'.name x) name) =
        route.children.find fun x => bstrcmp (s.name x) name := by
      apply Heap.find_congr
      intro x hx
      rw [h.name (hValid.forward hOld x hx).2]
    rw [findChild, findChild, bind_of_ok (route_eq hOld), bind_of_ok (route_eq (hRoute.trans hOld)), hFind]

/-- The new child is found by its name. -/
theorem Grown.findChild {parent : Nat} {name : Bytes} (h : Grown s parent name s') (hValid : s.Valid)
    (hNul : 0 ∉ name) (hNone : s.findChild parent (some name) = .ok none) :
    s'.findChild parent (some name) = .ok (some s.routes.length) := by
  obtain ⟨route, children, hOld, hNew, -, hPerm, -⟩ := h.below
  obtain ⟨c, hFind, hNamed⟩ := hValid.findChild_spec hOld (some name)
  rw [hNone] at hFind
  cases hFind
  obtain ⟨c, hFind', hNamed'⟩ := (h.valid hValid hNul).findChild_spec hNew (some name)
  cases c with
  | none => exact absurd h.name_new (hNamed' _ (hPerm.mem_iff.mpr List.mem_cons_self))
  | some c =>
    rcases List.mem_cons.mp (hPerm.mem_iff.mp hNamed'.1) with rfl | hc
    · exact hFind'
    · have hName := h.name_old (hValid.forward hOld c hc).2
      exact absurd (hName.symm.trans hNamed'.2) (hNamed c hc)

/-- `Route_find_child` step by step -/
def findPath (s : Routing C) : Nat → List (Option Bytes) → Run (Option Nat)
  | i, [] => pure (some i)
  | i, name :: rest => do
    match ← s.findChild i name with
    | some j => s.findPath j rest
    | none => pure none

theorem findPath_some {i j : Nat} {name : Option Bytes} {rest : List (Option Bytes)}
    (h : s.findChild i name = .ok (some j)) : s.findPath i (name :: rest) = s.findPath j rest := by
  rw [findPath, bind_of_ok h]

theorem findPath_none {i : Nat} {name : Option Bytes} {rest : List (Option Bytes)}
    (h : s.findChild i name = .ok none) : s.findPath i (name :: rest) = .ok none := by
  rw [findPath, bind_of_ok h]
  rfl

/-- The faults of a call that is given these names -/
def namesFaults (names : List (Option Bytes)) : Set Fault := {e | e = noMemory ∨ (e = noName ∧ none ∈ names)}

def NulFree (names : List (Option Bytes)) : Prop := ∀ a, some a ∈ names → 0 ∉ a

/-- What `Route_add` does from `parent` on. -/
structure Entered (s : Routing C) (parent : Nat) (names : List (Option Bytes)) (r : Routing C × Option Nat) :
    Prop where
  valid : r.1.Valid
  extends' : Extends parent s r.1
  found : ∃ k, r.2 = some k ∧ k < r.1.routes.length ∧ (NulFree names → r.1.findPath parent names = .ok (some k))

/-- One element: a child that is there, or a new one. -/
theorem Valid.step_spec (hLib : lib.Sound) (hValid : s.Valid) {parent : Nat} (hParent : parent < s.routes.length)
    (name : Option Bytes) :
    Barring (namesFaults [name])
      (do match ← s.findChild parent name with
          | some r => pure (s, r)
          | none => s.alloc lib parent name)
      fun r => r.1.Valid ∧ Extends parent s r.1 ∧ parent < r.2 ∧ r.2 < r.1.routes.length ∧
        (NulFree [name] → r.1.findChild parent name = .ok (some r.2)) := by
  obtain ⟨route, hRoute⟩ := getElem?_routes hParent
  obtain ⟨c, hFind, hNamed⟩ := hValid.findChild_spec hRoute name
  rw [bind_of_ok hFind]
  cases c with
  | some c =>
    have hForward := hValid.forward hRoute c hNamed.1
    exact .pure ⟨hValid, .refl _ _, hForward.1, hForward.2, fun _ => hFind⟩
  | none =>
    cases name with
    | none => exact .error (.inr ⟨rfl, List.mem_singleton_self _⟩)
    | some name =>
      apply ((hValid.alloc_spec hLib hParent name).weaken fun e he => .inl he).mono
      rintro ⟨t, r⟩ ⟨rfl, hGrown⟩
      have hStored := nul_not_mem_takeWhile name
      refine ⟨hGrown.valid hValid hStored, hGrown.extends, hParent, by rw [hGrown.length]; omega, ?_⟩
      intro hFree
      have hNul := hFree name (List.mem_singleton_self _)
      rw [takeWhile_of_no_nul hNul] at hGrown
      exact hGrown.findChild hValid hNul hFind

theorem Valid.add_spec (hLib : lib.Sound) {names : List (Option Bytes)} (hNames : names ≠ []) {parent : Nat}
    (hValid : s.Valid) (hParent : parent < s.routes.length) :
    Barring (namesFaults names) (add lib names parent s) (Entered s parent names) := by
  induction names generalizing parent s with
  | nil => exact absurd rfl hNames
  | cons name rest ih =>
    have hOne : namesFaults [name] ⊆ namesFaults (name :: rest) := by
      rintro e (he | ⟨he, hMem⟩)
      · exact .inl he
      · rw [List.mem_singleton] at hMem
        exact .inr ⟨he, hMem ▸ List.mem_cons_self⟩
    have hRest : namesFaults rest ⊆ namesFaults (name :: rest) := by
      rintro e (he | ⟨he, hMem⟩)
      · exact .inl he
      · exact .inr ⟨he, List.mem_cons_of_mem name hMem⟩
    have hFreeOne : NulFree (name :: rest) → NulFree [name] := fun h a ha =>
      h a (List.mem_singleton.mp ha ▸ List.mem_cons_self)
    rw [add]
    apply ((hValid.step_spec hLib hParent name).weaken hOne).bind
    rintro ⟨t, r⟩ ⟨hValidT, hExtends, hAfter, hLt, hFound⟩
    cases rest with
    | nil =>
      refine .pure ⟨hValidT, hExtends, r, rfl, hLt, ?_⟩
      intro hFree
      rw [findPath_some (hFound (hFreeOne hFree))]
      rfl
    | cons next rest =>
      apply ((ih (List.cons_ne_nil next rest) hValidT hLt).weaken hRest).mono
      rintro ⟨u, k⟩ ⟨hValidU, hExtendsU, k, rfl, hk, hPath⟩
      refine ⟨hValidU, hExtends.trans hExtendsU hAfter.le, k, rfl, hk, ?_⟩
      intro hFree
      have hStep : u.findChild parent name = .ok (some r) :=
        (hExtendsU.findChild_before hValidT hAfter name).trans (hFound (hFreeOne hFree))
      exact (findPath_some hStep).trans (hPath fun a ha => hFree a (List.mem_cons_of_mem name ha))

/-! ## Paths of a message -/

/-- The names of the steps among siblings. -/
def steps : Stackish.Tree D → List (Option Bytes)
  | .nil => []
  | .node n _ sibling => if isStep n then n.name :: steps sibling else steps sibling

/-- The path that a message takes: its own name and the steps among its children. -/
def pathOf : Stackish.Tree D → List (Option Bytes)
  | .nil => []
  | .node n child _ => n.name :: steps child

/-- The number of siblings. -/
def width : Stackish.Tree D → Nat
  | .nil => 0
  | .node _ _ sibling => width sibling + 1

def children : Stackish.Tree D → Stackish.Tree D
  | .nil => .nil
  | .node _ child _ => child

theorem pathLoop_eq {i : Nat} {t : Stackish.Tree D} {rest : List (Option Bytes)}
    (h : s.pathLoop i t = some rest) : rest = steps t := by
  induction t generalizing i rest with
  | nil =>
    cases h
    rfl
  | node n child sibling _ ih =>
    rw [pathLoop] at h
    rw [steps]
    split at h
    · split at h
      · rename_i hStep
        obtain ⟨rest', hRest, rfl⟩ := Option.map_eq_some_iff.mp h
        rw [if_pos hStep, ih hRest]
      · rename_i hStep
        rw [if_neg hStep]
        exact ih h
    · cases h

theorem pathLoop_of_width (hErrno : s.errno = 0) {i : Nat} {t : Stackish.Tree D}
    (hWidth : i + width t ≤ routeMaxPath) : s.pathLoop i t = some (steps t) := by
  induction t generalizing i with
  | nil => rfl
  | node n child sibling _ ih =>
    rw [width] at hWidth
    have hPass : s.passes (i < routeMaxPath) = true := by
      simp only [passes, hErrno, Bool.and_eq_true, decide_eq_true_eq]
      exact ⟨by omega, rfl⟩
    rw [pathLoop, if_pos hPass, steps]
    split
    · rw [ih (by omega)]
      rfl
    · exact ih (by omega)

/-- The loop of `Route_find` goes along the path, if there are not too many children. -/
theorem Valid.findLoop_eq (hValid : s.Valid) (hErrno : s.errno = 0) {t : Stackish.Tree D} {i r : Nat}
    (hi : i ≤ routeMaxPath) (hr : r < s.routes.length) {k : Option Nat}
    (hPath : s.findPath r (steps t) = .ok k) :
    s.findLoop i r t = .ok (s, if i + width t ≤ routeMaxPath then k else none) := by
  have hCleared : s.cleared = s := by rw [cleared, withErrno, ← hErrno]
  induction t generalizing i r with
  | nil =>
    cases hPath
    rw [if_pos (show i + width .nil ≤ routeMaxPath from hi)]
    rfl
  | node n child sibling _ ih =>
    have hWidth : i + width (.node n child sibling) = i + 1 + width sibling := by
      rw [width]
      omega
    rw [findLoop, hWidth]
    rw [steps] at hPath
    by_cases hLt : i < routeMaxPath
    · rw [if_pos (show s.passes (i < routeMaxPath) = true by simp [passes, hErrno, hLt])]
      split
      · rename_i hStep
        rw [if_pos hStep] at hPath
        obtain ⟨route, hRoute⟩ := getElem?_routes hr
        obtain ⟨c, hFind, hNamed⟩ := hValid.findChild_spec hRoute n.name
        rw [bind_of_ok hFind]
        cases c with
        | none =>
          rw [findPath_none hFind] at hPath
          cases hPath
          rw [ite_self]
          rfl
        | some c =>
          rw [findPath_some hFind] at hPath
          exact ih hLt (hValid.forward hRoute c hNamed.1).2 hPath
      · rename_i hStep
        rw [if_neg hStep] at hPath
        exact ih hLt hr hPath
    · rw [if_neg (show ¬s.passes (i < routeMaxPath) = true by simp [passes, hLt]), if_neg (by omega), hCleared]
      rfl

theorem Valid.find_eq (hValid : s.Valid) (hErrno : s.errno = 0) (hRoot : 0 < s.routes.length)
    {t : Stackish.Tree D} (ht : t ≠ .nil) {k : Option Nat} (hPath : s.findPath 0 (pathOf t) = .ok k) :
    s.find t = .ok (s, if width (children t) ≤ routeMaxPath then k else none) := by
  cases t with
  | nil => exact absurd rfl ht
  | node n child sibling =>
    obtain ⟨route, hRoute⟩ := getElem?_routes hRoot
    obtain ⟨c, hFind, hNamed⟩ := hValid.findChild_spec hRoute n.name
    rw [find, bind_of_ok hFind]
    rw [pathOf] at hPath
    cases c with
    | none =>
      rw [findPath_none hFind] at hPath
      cases hPath
      rw [ite_self]
      rfl
    | some c =>
      rw [findPath_some hFind] at hPath
      have hLoop := hValid.findLoop_eq hErrno (Nat.zero_le _) (hValid.forward hRoute c hNamed.1).2 hPath
      rw [Nat.zero_add] at hLoop
      exact hLoop

/-- A name with a NUL is never found. -/
theorem Valid.findPath_nul (hValid : s.Valid) {i : Nat} (hi : i < s.routes.length)
    {names : List (Option Bytes)} (hNames : ¬NulFree names) : s.findPath i names = .ok none := by
  induction names generalizing i with
  | nil =>
    refine absurd ?_ hNames
    intro a ha
    cases ha
  | cons name rest ih =>
    obtain ⟨route, hRoute⟩ := getElem?_routes hi
    obtain ⟨c, hFind, hNamed⟩ := hValid.findChild_spec hRoute name
    cases c with
    | none => exact findPath_none hFind
    | some c =>
      obtain ⟨a, hName, hNul⟩ := hValid.name_of_child hRoute hNamed.1
      rw [findPath_some hFind]
      apply ih (hValid.forward hRoute c hNamed.1).2
      intro hRest
      apply hNames
      intro b hb
      rcases List.mem_cons.mp hb with hHead | hb
      · have hSame : some b = some a := hHead.trans (hNamed.2.symm.trans hName)
        cases hSame
        exact hNul
      · exact hRest b hb

end Utu.Hub.Routing
