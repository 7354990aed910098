import Utu.Hub.RouteTree

/-!
# Registration

Registering a member extends the tree and then enters the member in the heap of
a route and the route in the heap of the member. The other operations leave the
tree as it is. A lookup goes the way that a registration went, but the two
count differently: registration counts the steps of the path, lookup all
children of the message.
-/

namespace Utu.Hub.Routing
open Comparator Outcome LinkedForest
set_option autoImplicit false

variable {C D : Type} {lib : HeapLib} {place : Nat → Nat} {s s' : Routing C}

theorem routesOf_eq {m : Nat} {h : Heap Nat} (hm : s.members.lookup m = some h) : s.routesOf m = .ok h := by
  rw [routesOf, hm]
  rfl

/-! ## The tree stays -/

/-- The routes have the names, callbacks and children that they had. -/
structure SameTree (s s' : Routing C) : Prop where
  length : s'.routes.length = s.routes.length
  routes : ∀ {i : Nat} {route : Route C}, s.routes[i]? = some route → ∃ route', s'.routes[i]? = some route' ∧
    route'.name = route.name ∧ route'.callback = route.callback ∧ route'.children = route.children

theorem SameTree.refl (s : Routing C) : SameTree s s := ⟨rfl, fun h => ⟨_, h, rfl, rfl, rfl⟩⟩

theorem SameTree.trans {t : Routing C} (h : SameTree s t) (h' : SameTree t s') : SameTree s s' where
  length := h'.length.trans h.length
  routes := by
    intro i route hRoute
    obtain ⟨middle, hMiddle, hName, hCallback, hChildren⟩ := h.routes hRoute
    obtain ⟨route', hRoute', hName', hCallback', hChildren'⟩ := h'.routes hMiddle
    exact ⟨route', hRoute', hName'.trans hName, hCallback'.trans hCallback, hChildren'.trans hChildren⟩

theorem SameTree.back (h : SameTree s s') {i : Nat} {route' : Route C} (hRoute : s'.routes[i]? = some route') :
    ∃ route, s.routes[i]? = some route ∧ route'.name = route.name ∧ route'.callback = route.callback ∧
      route'.children = route.children := by
  have hLt := lt_of_getElem? hRoute
  rw [h.length] at hLt
  obtain ⟨route, hOld⟩ := getElem?_routes hLt
  obtain ⟨route'', hNew, hSame⟩ := h.routes hOld
  rw [hRoute] at hNew
  cases hNew
  exact ⟨route, hOld, hSame⟩

theorem SameTree.name (h : SameTree s s') (i : Nat) : s'.name i = s.name i := by
  cases hOld : s.routes[i]? with
  | some route =>
    obtain ⟨route', hNew, hName, -⟩ := h.routes hOld
    rw [name_eq hOld, name_eq hNew, hName]
  | none =>
    have hNew : s'.routes[i]? = none := by
      rw [List.getElem?_eq_none_iff, h.length]
      exact List.getElem?_eq_none_iff.mp hOld
    rw [Routing.name, Routing.name, hOld, hNew]

theorem SameTree.findChild (h : SameTree s s') {parent : Nat} (hParent : parent < s.routes.length)
    (name : Option Bytes) : s'.findChild parent name = s.findChild parent name := by
  obtain ⟨route, hOld⟩ := getElem?_routes hParent
  obtain ⟨route', hNew, -, -, hChildren⟩ := h.routes hOld
  rw [Routing.findChild, Routing.findChild, bind_of_ok (route_eq hOld), bind_of_ok (route_eq hNew), hChildren]
  simp only [h.name]

theorem SameTree.findPath (h : SameTree s s') (hValid : s.Valid) {i : Nat} (hi : i < s.routes.length)
    (names : List (Option Bytes)) : s'.findPath i names = s.findPath i names := by
  induction names generalizing i with
  | nil => rfl
  | cons name rest ih =>
    obtain ⟨route, hRoute⟩ := getElem?_routes hi
    obtain ⟨c, hFind, hNamed⟩ := hValid.findChild_spec hRoute name
    have hFind' := (h.findChild hi name).trans hFind
    cases c with
    | none => rw [findPath_none hFind, findPath_none hFind']
    | some c =>
      rw [findPath_some hFind, findPath_some hFind']
      exact ih (hValid.forward hRoute c hNamed.1).2

/-- Only heaps of members and routes change. -/
theorem SameTree.valid (h : SameTree s s') (hValid : s.Valid)
    (hMembers : ∀ {i : Nat} {route : Route C}, s'.routes[i]? = some route → route.members.Valid)
    (hLinks : ∀ {m : Nat} {h : Heap Nat}, s'.members.lookup m = some h →
      h.Valid ∧ ∀ r ∈ h.members, r < s.routes.length) : s'.Valid where
  heaps := by
    intro i route' hRoute
    obtain ⟨route, hOld, -, -, hChildren⟩ := h.back hRoute
    rw [hChildren]
    exact ⟨hMembers hRoute, (hValid.heaps hOld).2⟩
  forward := by
    intro i route' hRoute
    obtain ⟨route, hOld, -, -, hChildren⟩ := h.back hRoute
    rw [hChildren, h.length]
    exact hValid.forward hOld
  names := by
    intro i route' hRoute
    obtain ⟨route, hOld, hName, -⟩ := h.back hRoute
    rw [hName]
    exact hValid.names hOld
  sorted := by
    intro i route' hRoute
    obtain ⟨route, hOld, -, -, hChildren⟩ := h.back hRoute
    have hCompare : s'.childrenCompare = s.childrenCompare := by
      funext x y
      rw [childrenCompare, childrenCompare, h.name, h.name]
    rw [hChildren, hCompare]
    exact hValid.sorted hOld
  links := by
    rw [h.length]
    exact hLinks

theorem sameTree_setRoute {r : Nat} {route : Route C} (hRoute : s.routes[r]? = some route) (members : Heap Nat) :
    SameTree s (s.setRoute r { route with members := members }) where
  length := List.length_set
  routes := by
    intro i old hOld
    by_cases hi : i = r
    · subst hi
      rw [hRoute] at hOld
      cases hOld
      exact ⟨_, getElem?_setRoute_self (lt_of_getElem? hRoute) _, rfl, rfl, rfl⟩
    · exact ⟨old, (getElem?_setRoute_ne hi _).trans hOld, rfl, rfl, rfl⟩

theorem Valid.setRoute {r : Nat} {route : Route C} (hValid : s.Valid) (hRoute : s.routes[r]? = some route)
    {members : Heap Nat} (hMembers : members.Valid) :
    (s.setRoute r { route with members := members }).Valid := by
  apply (sameTree_setRoute hRoute members).valid hValid
  · intro i route' hNew
    by_cases hi : i = r
    · subst hi
      rw [getElem?_setRoute_self (lt_of_getElem? hRoute)] at hNew
      cases hNew
      exact hMembers
    · rw [getElem?_setRoute_ne hi] at hNew
      exact (hValid.heaps hNew).1
  · exact hValid.links

theorem sameTree_setRoutesOf (s : Routing C) (m : Nat) (routes : Heap Nat) :
    SameTree s (s.setRoutesOf m routes) := ⟨rfl, fun h => ⟨_, h, rfl, rfl, rfl⟩⟩

theorem lookup_setRoutesOf_self (s : Routing C) (m : Nat) (routes : Heap Nat) :
    (s.setRoutesOf m routes).members.lookup m = some routes := AList.lookup_insert _

theorem lookup_setRoutesOf_ne {m k : Nat} (hNe : k ≠ m) (routes : Heap Nat) :
    (s.setRoutesOf m routes).members.lookup k = s.members.lookup k := AList.lookup_insert_ne hNe

/-- The routes of a member are replaced. -/
theorem Valid.setMember (hValid : s.Valid) (m : Nat) {routes : Heap Nat} (hRoutes : routes.Valid)
    (hLt : ∀ r ∈ routes.members, r < s.routes.length) :
    (s.setRoutesOf m routes).Valid := by
  apply (sameTree_setRoutesOf s m routes).valid hValid
  · intro i route hRoute
    exact (hValid.heaps hRoute).1
  · intro k h hk
    by_cases hSame : k = m
    · subst hSame
      rw [lookup_setRoutesOf_self] at hk
      cases hk
      exact ⟨hRoutes, hLt⟩
    · rw [lookup_setRoutesOf_ne hSame] at hk
      exact hValid.links hk

theorem Valid.cleared (hValid : s.Valid) : s.cleared.Valid :=
  ⟨hValid.heaps, hValid.forward, hValid.names, hValid.sorted, hValid.links⟩

/-! ## Registering -/

/-- The member is entered in the heap of the route, and the route in that of the member. -/
structure MemberAdded (place : Nat → Nat) (s : Routing C) (r m : Nat) (s' : Routing C) : Prop where
  heaps : ∃ route routes members' routes', s.routes[r]? = some route ∧ route.callback = none ∧
    s.members.lookup m = some routes ∧ Heap.Added voidPtrCompare m route.members members' ∧
    Heap.Added (routeCompare place) r routes routes' ∧
    s' = (s.setRoute r { route with members := members' }).setRoutesOf m routes'

theorem MemberAdded.sameTree {r m : Nat} (h : MemberAdded place s r m s') : SameTree s s' := by
  obtain ⟨route, routes, members', routes', hRoute, -, -, -, -, rfl⟩ := h.heaps
  exact (sameTree_setRoute hRoute members').trans (sameTree_setRoutesOf _ m routes')

theorem MemberAdded.errno {r m : Nat} (h : MemberAdded place s r m s') : s'.errno = s.errno := by
  obtain ⟨route, routes, members', routes', -, -, -, -, -, rfl⟩ := h.heaps
  rfl

theorem MemberAdded.valid {r m : Nat} (h : MemberAdded place s r m s') (hValid : s.Valid) : s'.Valid := by
  obtain ⟨route, routes, members', routes', hRoute, -, hm, hAdded, hAdded', rfl⟩ := h.heaps
  have hLength := (sameTree_setRoute hRoute members').length
  apply (hValid.setRoute hRoute hAdded.valid).setMember m hAdded'.valid
  intro k hk
  rw [hLength]
  rcases List.mem_cons.mp (hAdded'.perm.mem_iff.mp hk) with rfl | hk
  · exact lt_of_getElem? hRoute
  · exact (hValid.links hm).2 k hk

theorem Valid.addMember_spec (hLib : lib.Sound) (place : Nat → Nat) (hValid : s.Valid) {r m : Nat} {route : Route C}
    (hRoute : s.routes[r]? = some route) {routes : Heap Nat} (hm : s.members.lookup m = some routes) :
    Barring {noMemory} (s.addMember lib place r m) fun t =>
      (route.callback ≠ none ∧ t = (s, false)) ∨ (t.2 = true ∧ MemberAdded place s r m t.1) := by
  rw [addMember, bind_of_ok (route_eq hRoute)]
  by_cases hCallback : route.callback = none
  · rw [if_neg (by simp [hCallback])]
    apply (Heap.add_spec hLib (hValid.heaps hRoute).1 m).bind
    intro members' hAdded
    rw [bind_of_ok (routesOf_eq hm)]
    apply (Heap.add_spec hLib (hValid.links hm).1 r).bind
    intro routes' hAdded'
    exact .pure (.inr ⟨rfl, route, routes, members', routes', hRoute, hCallback, hm, hAdded, hAdded', rfl⟩)
  · rw [if_pos (Option.isSome_iff_ne_none.mpr hCallback)]
    exact .pure (.inl ⟨hCallback, rfl⟩)

/-- `Route_extend_and_find`: the path is entered, or too long -/
theorem Valid.extendAndFind_spec (hLib : lib.Sound) (hValid : s.Valid) (hRoot : 0 < s.routes.length)
    {n : Stackish.Tree D} (hn : n ≠ .nil) :
    Barring (namesFaults (pathOf n)) (s.extendAndFind lib n) fun t =>
      (t = (s.cleared, none) ∧ s.pathLoop 1 (children n) = none) ∨
        (Entered s 0 (pathOf n) t ∧ add lib (pathOf n) 0 s = .ok t) := by
  cases n with
  | nil => exact absurd rfl hn
  | node d child sibling =>
    rw [extendAndFind]
    cases hLoop : s.pathLoop 1 child with
    | none => exact .pure (.inl ⟨rfl, hLoop⟩)
    | some rest =>
      obtain rfl := pathLoop_eq hLoop
      rcases hValid.add_spec hLib (List.cons_ne_nil d.name (steps child)) hRoot with
        ⟨e, he, hError⟩ | ⟨t, hOk, hEntered⟩
      · exact .inl ⟨e, he, hError⟩
      · exact .inr ⟨t, hOk, .inr ⟨hEntered, hOk⟩⟩

/-- What `Route_register` comes to: the tree is extended, or not even that, and the member is entered
unless `errno` was set, the path is too long or the route is internal. -/
structure Registered (lib : HeapLib) (place : Nat → Nat) (s : Routing C) (n : Stackish.Tree D) (m : Nat)
    (t : Routing C) (result : Routing C × Bool) : Prop where
  valid : t.Valid
  extends' : Extends 0 s t
  result : (result = (t.cleared, false) ∧
      ((t = s ∧ s.pathLoop 1 (children n) = none) ∨ s.errno ≠ 0 ∨
        ∃ r route, add lib (pathOf n) 0 s = .ok (t, some r) ∧ t.routes[r]? = some route ∧
          route.callback ≠ none)) ∨
    (result.2 = true ∧ s.errno = 0 ∧ ∃ r, s.extendAndFind lib n = .ok (t, some r) ∧
      add lib (pathOf n) 0 s = .ok (t, some r) ∧ Entered s 0 (pathOf n) (t, some r) ∧
      t.addMember lib place r m = .ok (result.1, true) ∧ MemberAdded place t r m result.1)

theorem Valid.register_spec (hLib : lib.Sound) (place : Nat → Nat) (hValid : s.Valid)
    (hRoot : 0 < s.routes.length) {n : Stackish.Tree D} (hn : n ≠ .nil) {m : Nat} {routes : Heap Nat}
    (hm : s.members.lookup m = some routes) :
    Barring (namesFaults (pathOf n)) (s.register lib place n m) fun result =>
      ∃ t, Registered lib place s n m t result := by
  rw [register]
  rcases hValid.extendAndFind_spec hLib hRoot hn with
    ⟨e, he, hError⟩ | ⟨⟨t, k⟩, hExtend, ⟨hSame, hLoop⟩ | ⟨hEntered, hOk⟩⟩
  · rw [bind_of_error hError]
    exact .error he
  · cases hSame
    rw [bind_of_ok hExtend]
    exact .pure ⟨s, hValid, .refl 0 s, .inl ⟨rfl, .inl ⟨rfl, hLoop⟩⟩⟩
  obtain ⟨hValidT, hExtends, r, hr, hLt, -⟩ := id hEntered
  dsimp only at hr hValidT hExtends hLt
  subst hr
  have hErrnoT : t.errno = s.errno := hExtends.errno
  rw [bind_of_ok hExtend]
  dsimp only
  by_cases hErrno : s.errno = 0
  · rw [hErrno] at hErrnoT
    obtain ⟨route, hRoute⟩ := getElem?_routes hLt
    have hmT : t.members.lookup m = some routes := by rw [hExtends.members, hm]
    rw [if_pos (show t.passes true = true by simp [passes, hErrnoT])]
    rcases hValidT.addMember_spec hLib place hRoute hmT with
      ⟨e, he, hError⟩ | ⟨⟨u, added⟩, hAdd, ⟨hInternal, hSame⟩ | ⟨hAdded, hMember⟩⟩
    · rw [bind_of_error hError]
      exact .error (.inl he)
    · cases hSame
      rw [bind_of_ok hAdd]
      dsimp only
      rw [if_neg (show ¬t.passes false = true by simp [passes])]
      exact .pure ⟨t, hValidT, hExtends, .inl ⟨rfl, .inr (.inr ⟨r, route, hOk, hRoute, hInternal⟩)⟩⟩
    · dsimp only at hAdded hMember
      subst hAdded
      have hErrnoU := hMember.errno.trans hErrnoT
      rw [bind_of_ok hAdd]
      dsimp only
      rw [if_pos (show u.passes true = true by simp [passes, hErrnoU])]
      exact .pure ⟨t, hValidT, hExtends, .inr ⟨rfl, hErrno, r, hExtend, hOk, hEntered, hAdd, hMember⟩⟩
  · rw [if_neg (show ¬t.passes true = true by simp [passes, hErrnoT, hErrno])]
    exact .pure ⟨t, hValidT, hExtends, .inl ⟨rfl, .inr (.inl hErrno)⟩⟩

/-! ## Services -/

theorem getElem?_setCallback {r : Nat} {route : Route C} (hRoute : s.routes[r]? = some route) (callback : C)
    {i : Nat} {route' : Route C}
    (hNew : (s.setRoute r { route with callback := some callback }).routes[i]? = some route') :
    ∃ old, s.routes[i]? = some old ∧ route'.name = old.name ∧ route'.members = old.members ∧
      route'.children = old.children ∧ (i ≠ r → route' = old) := by
  by_cases hi : i = r
  · subst hi
    rw [getElem?_setRoute_self (lt_of_getElem? hRoute)] at hNew
    cases hNew
    exact ⟨route, hRoute, rfl, rfl, rfl, fun h => absurd rfl h⟩
  · rw [getElem?_setRoute_ne hi] at hNew
    exact ⟨route', hNew, rfl, rfl, rfl, fun _ => rfl⟩

theorem Valid.setCallback (hValid : s.Valid) {r : Nat} {route : Route C} (hRoute : s.routes[r]? = some route)
    (callback : C) : (s.setRoute r { route with callback := some callback }).Valid := by
  have hLength : (s.setRoute r { route with callback := some callback }).routes.length = s.routes.length :=
    List.length_set
  have hCompare : (s.setRoute r { route with callback := some callback }).childrenCompare =
      s.childrenCompare := by
    have hName : ∀ j, (s.setRoute r { route with callback := some callback }).name j = s.name j :=
      name_setRoute hRoute rfl
    funext x y
    rw [childrenCompare, childrenCompare, hName, hName]
  constructor
  · intro i route' hNew
    obtain ⟨old, hOld, -, hMembers, hChildren, -⟩ := getElem?_setCallback hRoute callback hNew
    rw [hMembers, hChildren]
    exact hValid.heaps hOld
  · intro i route' hNew
    obtain ⟨old, hOld, -, -, hChildren, -⟩ := getElem?_setCallback hRoute callback hNew
    rw [hChildren, hLength]
    exact hValid.forward hOld
  · intro i route' hNew
    obtain ⟨old, hOld, hName, -⟩ := getElem?_setCallback hRoute callback hNew
    rw [hName]
    exact hValid.names hOld
  · intro i route' hNew
    obtain ⟨old, hOld, -, -, hChildren, -⟩ := getElem?_setCallback hRoute callback hNew
    rw [hChildren, hCompare]
    exact hValid.sorted hOld
  · rw [hLength]
    exact hValid.links

/-- `Route_register_callback`: the tree is extended, and the route gets the callback unless `errno` was
set or the path is too long. -/
theorem Valid.registerCallback_spec (hLib : lib.Sound) (hValid : s.Valid) (hRoot : 0 < s.routes.length)
    {n : Stackish.Tree D} (hn : n ≠ .nil) (callback : C) :
    Barring (namesFaults (pathOf n)) (s.registerCallback lib n callback) fun u =>
      ∃ t, t.Valid ∧ Extends 0 s t ∧
        (u = (t.cleared, false) ∨
          (u.2 = true ∧ s.errno = 0 ∧ ∃ r route, add lib (pathOf n) 0 s = .ok (t, some r) ∧
            t.routes[r]? = some route ∧ u.1 = t.setRoute r { route with callback := some callback })) := by
  rw [registerCallback]
  apply (hValid.extendAndFind_spec hLib hRoot hn).bind
  rintro ⟨t, k⟩ (⟨hSame, -⟩ | ⟨hEntered, hOk⟩)
  · cases hSame
    exact .pure ⟨s, hValid, .refl 0 s, .inl rfl⟩
  · obtain ⟨hValidT, hExtends, r, hr, hLt, -⟩ := hEntered
    dsimp only at hr hValidT hExtends hLt
    subst hr
    obtain ⟨route, hRoute⟩ := getElem?_routes hLt
    by_cases hErrno : s.errno = 0
    · dsimp only
      rw [if_pos (show t.passes true = true by simp [passes, hExtends.errno, hErrno]),
        bind_of_ok (route_eq hRoute)]
      exact .pure ⟨t, hValidT, hExtends, .inr ⟨rfl, hErrno, r, route, hOk, hRoute, rfl⟩⟩
    · dsimp only
      rw [if_neg (show ¬t.passes true = true by simp [passes, hExtends.errno, hErrno])]
      exact .pure ⟨t, hValidT, hExtends, .inl rfl⟩

/-! ## Looking up what was registered -/

/-- The route that `Route_register` adds the member to -/
def AddedTo (lib : HeapLib) (place : Nat → Nat) (s : Routing C) (n : Stackish.Tree D) (m : Nat)
    (s' : Routing C) (r : Nat) : Prop :=
  ∃ t, s.extendAndFind lib n = .ok (t, some r) ∧ t.addMember lib place r m = .ok (s', true)

/-- The message has at most `ROUTE_MAX_PATH` children, and no name on its path holds a NUL. -/
def Findable (n : Stackish.Tree D) : Prop := width (children n) ≤ routeMaxPath ∧ NulFree (pathOf n)

/-- `Route_find` finds the route that a member was just added to exactly for these messages. -/
theorem registered_found_iff (hLib : lib.Sound) (hValid : s.Valid) (hRoot : 0 < s.routes.length)
    {n : Stackish.Tree D} {m : Nat} {routes : Heap Nat} (hm : s.members.lookup m = some routes)
    (hRegister : s.register lib place n m = .ok (s', true)) :
    (∃ r, AddedTo lib place s n m s' r ∧ ∃ t, s'.find n = .ok (t, some r)) ↔ Findable n := by
  have hn : n ≠ .nil := by
    rintro rfl
    cases hRegister
  obtain ⟨t, hRegistered⟩ := (hValid.register_spec hLib place hRoot hn hm).of_ok hRegister
  obtain ⟨hSame, -⟩ | ⟨-, hErrno, r, hExtend, -, hEntered, hAdd, hMember⟩ := hRegistered.result
  · cases hSame
  have hRootT := Nat.lt_of_lt_of_le hRoot hRegistered.extends'.le
  have hValid' := hMember.valid hRegistered.valid
  have hErrno' : s'.errno = 0 := hMember.errno.trans (hRegistered.extends'.errno.trans hErrno)
  have hRoot' : 0 < s'.routes.length := hMember.sameTree.length ▸ hRootT
  have hPath : s'.findPath 0 (pathOf n) = t.findPath 0 (pathOf n) :=
    hMember.sameTree.findPath hRegistered.valid hRootT (pathOf n)
  by_cases hNul : NulFree (pathOf n)
  · obtain ⟨k, hk, -, hFound⟩ := hEntered.found
    cases hk
    have hFind := hValid'.find_eq hErrno' hRoot' hn (hPath.trans (hFound hNul))
    constructor
    · rintro ⟨r', -, u, hFind'⟩
      rw [hFind] at hFind'
      by_contra hWide
      rw [if_neg fun hWidth => hWide ⟨hWidth, hNul⟩] at hFind'
      cases hFind'
    · rintro ⟨hWidth, -⟩
      rw [if_pos hWidth] at hFind
      exact ⟨r, ⟨t, hExtend, hAdd⟩, s', hFind⟩
  · have hFind := hValid'.find_eq hErrno' hRoot' hn (hPath.trans (hRegistered.valid.findPath_nul hRootT hNul))
    rw [ite_self] at hFind
    constructor
    · rintro ⟨r', -, u, hFind'⟩
      rw [hFind] at hFind'
      cases hFind'
    · rintro ⟨-, hFree⟩
      exact absurd hFree hNul

theorem Valid.login (hValid : s.Valid) (m : Nat) : (s.login m).Valid := by
  apply hValid.setMember m Heap.create_valid
  intro r hr
  cases hr

theorem createRoot_route {name : Option Bytes} (h : createRoot name = .ok s) {i : Nat} {route : Route C}
    (hRoute : s.routes[i]? = some route) :
    route.callback = none ∧ route.members = .create ∧ route.children = .create := by
  cases name with
  | none => cases h
  | some name =>
    cases h
    obtain rfl := List.mem_singleton.mp (List.mem_of_getElem? hRoute)
    exact ⟨rfl, rfl, rfl⟩

theorem createRoot_valid {name : Option Bytes} (h : createRoot name = .ok s) :
    s.Valid ∧ s.routes.length = 1 ∧ s.members = ∅ ∧ s.errno = 0 := by
  cases name with
  | none => cases h
  | some name =>
    have hRoot : ∀ {i : Nat} {route : Route C}, s.routes[i]? = some route → _ := createRoot_route h
    cases h
    refine ⟨⟨?_, ?_, ?_, ?_, ?_⟩, rfl, rfl, rfl⟩
    · intro i route hRoute
      rw [(hRoot hRoute).2.1, (hRoot hRoute).2.2]
      exact ⟨Heap.create_valid, Heap.create_valid⟩
    · intro i route hRoute c hc
      rw [(hRoot hRoute).2.2] at hc
      cases hc
    · intro i route hRoute
      obtain rfl := List.mem_singleton.mp (List.mem_of_getElem? hRoute)
      exact nul_not_mem_takeWhile name
    · intro i route hRoute
      rw [(hRoot hRoute).2.2]
      exact List.Pairwise.nil
    · intro m routes hm
      cases hm

/-! ## One member -/

/-- A tree with its root only. -/
def rootOnly : Routing Unit := ⟨[⟨[114], none, .create, .create⟩], ∅, 0⟩

theorem createRoot_rootOnly : createRoot (some [114]) = .ok rootOnly := rfl

/-- One member comes. -/
def single : Routing Unit := rootOnly.login 1

theorem single_valid : single.Valid ∧ 0 < single.routes.length ∧ single.members.lookup 1 = some .create := by
  exact ⟨(createRoot_valid createRoot_rootOnly).1.login 1, Nat.one_pos, lookup_setRoutesOf_self _ _ _⟩

/-- A group around so many numbers. -/
def numbers : Nat → Stackish.Tree Unit
  | 0 => .nil
  | k + 1 => .node ⟨none, .number 0⟩ .nil (numbers k)

def groupOf (k : Nat) : Stackish.Tree Unit := .node ⟨some [97], .group⟩ (numbers k) .nil

/-- The member is registered for `a`. -/
def singleAt : Routing Unit :=
  ⟨[⟨[114], none, .create, ⟨[1], 8⟩⟩, ⟨[97], none, ⟨[1], 8⟩, .create⟩], AList.insert 1 ⟨[1], 8⟩ single.members, 0⟩

theorem registered_found_single :
    single.register plainLib id (groupOf 2) 1 = .ok (singleAt, true) ∧
      ∃ r, AddedTo plainLib id single (groupOf 2) 1 singleAt r ∧
        ∃ t, singleAt.find (groupOf 2) = .ok (t, some r) := by
  have hRegister : single.register plainLib id (groupOf 2) 1 = .ok (singleAt, true) := by rfl
  obtain ⟨hValid, hRoot, hm⟩ := single_valid
  refine ⟨hRegister, (registered_found_iff plainLib_sound hValid hRoot hm hRegister).mpr ?_⟩
  refine ⟨by decide, ?_⟩
  intro a ha
  cases List.mem_singleton.mp ha
  decide

/-- A message with 31 numbers is registered, and cannot be found. -/
theorem registered_lost :
    single.Valid ∧ 0 < single.routes.length ∧ single.members.lookup 1 = some .create ∧
      single.register plainLib id (groupOf 31) 1 = .ok (singleAt, true) ∧
      AddedTo plainLib id single (groupOf 31) 1 singleAt 1 ∧
      singleAt.find (groupOf 31) = .ok (singleAt, none) := by
  obtain ⟨hValid, hRoot, hm⟩ := single_valid
  exact ⟨hValid, hRoot, hm, by rfl, ⟨_, by rfl, by rfl⟩, by rfl⟩

end Utu.Hub.Routing
