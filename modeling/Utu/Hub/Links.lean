import Utu.Hub.Registration

/-!
# Members and their routes

A member stands in the heap of a route as often as the route stands in the heap
of the member. The four operations change the two heaps one after the other;
counted as multisets, what each of them does is to add or take out one element.
The comparator of pointers has to order the addresses for that.
-/

namespace Utu.Hub.Routing
open Comparator Outcome LinkedForest
set_option autoImplicit false

variable {C D : Type} {lib : HeapLib} {place : Nat → Nat} {s s' : Routing C}

/-! ## What the heaps hold -/

/-- The members of a route -/
def membersOf (s : Routing C) (r : Nat) : Multiset Nat :=
  (s.routes[r]?.map fun route => (route.members.members : Multiset Nat)).getD 0

/-- The routes of a member -/
def linksOf (s : Routing C) (m : Nat) : Multiset Nat :=
  ((s.members.lookup m).map fun routes => (routes.members : Multiset Nat)).getD 0

theorem membersOf_eq {r : Nat} {route : Route C} (h : s.routes[r]? = some route) :
    s.membersOf r = route.members.members := by
  rw [membersOf, h]
  rfl

theorem linksOf_eq {m : Nat} {routes : Heap Nat} (h : s.members.lookup m = some routes) :
    s.linksOf m = routes.members := by
  rw [linksOf, h]
  rfl

theorem linksOf_congr (h : s'.members = s.members) (m : Nat) : s'.linksOf m = s.linksOf m := by
  rw [linksOf, linksOf, h]

theorem membersOf_congr (h : s'.routes = s.routes) (r : Nat) : s'.membersOf r = s.membersOf r := by
  rw [membersOf, membersOf, h]

@[simp] theorem membersOf_setRoutesOf (s : Routing C) (m : Nat) (routes : Heap Nat) (r : Nat) :
    (s.setRoutesOf m routes).membersOf r = s.membersOf r := rfl

@[simp] theorem linksOf_setRoute (s : Routing C) (r : Nat) (route : Route C) (m : Nat) :
    (s.setRoute r route).linksOf m = s.linksOf m := rfl

theorem membersOf_setRoute {r : Nat} (hr : r < s.routes.length) (route : Route C) (k : Nat) :
    (s.setRoute r route).membersOf k = if k = r then (route.members.members : Multiset Nat) else s.membersOf k := by
  split
  · rename_i hSame
    subst hSame
    exact membersOf_eq (getElem?_setRoute_self hr route)
  · rename_i hNe
    rw [membersOf, membersOf, getElem?_setRoute_ne hNe]

theorem linksOf_setRoutesOf (s : Routing C) (m : Nat) (routes : Heap Nat) (k : Nat) :
    (s.setRoutesOf m routes).linksOf k = if k = m then (routes.members : Multiset Nat) else s.linksOf k := by
  split
  · rename_i hSame
    subst hSame
    exact linksOf_eq (lookup_setRoutesOf_self s k routes)
  · rename_i hNe
    rw [linksOf, linksOf, lookup_setRoutesOf_ne hNe]

/-- New routes have no members. -/
theorem Extends.membersOf {start : Nat} (h : Extends start s s') (r : Nat) : s'.membersOf r = s.membersOf r := by
  cases hOld : s.routes[r]? with
  | some route =>
    obtain ⟨route', hNew, hSame⟩ := h.old hOld
    rw [membersOf_eq hOld, membersOf_eq hNew, hSame.members]
  | none =>
    have hNone : s.membersOf r = 0 := by
      rw [Routing.membersOf, hOld]
      rfl
    rw [hNone]
    cases hNew : s'.routes[r]? with
    | none =>
      rw [Routing.membersOf, hNew]
      rfl
    | some route =>
      rw [membersOf_eq hNew, (h.fresh (List.getElem?_eq_none_iff.mp hOld) hNew).2]
      rfl

/-! ## Order -/

/-- All heaps of members are sorted and hold addresses in `M` only, and so are all heaps of routes. -/
structure Ordered (place : Nat → Nat) (M : Set Nat) (s : Routing C) : Prop where
  members : ∀ {r : Nat} {route : Route C}, s.routes[r]? = some route →
    (∀ x ∈ route.members.members, x ∈ M) ∧ Sorted voidPtrCompare route.members.members
  links : ∀ {m : Nat} {routes : Heap Nat}, s.members.lookup m = some routes →
    Sorted (routeCompare place) routes.members

/-- The comparator of pointers orders the addresses of the routes. -/
def Places (place : Nat → Nat) (s : Routing C) : Prop :=
  Orders (routeCompare place) {r | r < s.routes.length}

theorem Places.mono (h : Places place s') (hLe : s.routes.length ≤ s'.routes.length) : Places place s :=
  Orders.mono h fun _ hr => Nat.lt_of_lt_of_le hr hLe

variable {M : Set Nat}

theorem Ordered.congr (h : Ordered place M s) (hRoutes : s'.routes = s.routes)
    (hMembers : s'.members = s.members) : Ordered place M s' where
  members := by
    rw [hRoutes]
    exact h.members
  links := by
    rw [hMembers]
    exact h.links

theorem Ordered.extends {start : Nat} (h : Ordered place M s) (hExtends : Extends start s s') :
    Ordered place M s' where
  members := by
    intro r route' hNew
    rcases Nat.lt_or_ge r s.routes.length with hLt | hGe
    · obtain ⟨route, hOld⟩ := getElem?_routes hLt
      obtain ⟨route'', hNew', hSame⟩ := hExtends.old hOld
      rw [hNew] at hNew'
      cases hNew'
      rw [hSame.members]
      exact h.members hOld
    · rw [(hExtends.fresh hGe hNew).2]
      refine ⟨?_, List.Pairwise.nil⟩
      intro x hx
      cases hx
  links := by
    rw [hExtends.members]
    exact h.links

theorem Ordered.setRoute (h : Ordered place M s) {r : Nat} {route : Route C} (hr : r < s.routes.length)
    (hMem : ∀ x ∈ route.members.members, x ∈ M) (hSorted : Sorted voidPtrCompare route.members.members) :
    Ordered place M (s.setRoute r route) where
  members := by
    intro k route' hNew
    by_cases hk : k = r
    · subst hk
      rw [getElem?_setRoute_self hr] at hNew
      cases hNew
      exact ⟨hMem, hSorted⟩
    · rw [getElem?_setRoute_ne hk] at hNew
      exact h.members hNew
  links := h.links

theorem Ordered.setRoutesOf (h : Ordered place M s) (m : Nat) {routes : Heap Nat}
    (hSorted : Sorted (routeCompare place) routes.members) : Ordered place M (s.setRoutesOf m routes) where
  members := h.members
  links := by
    intro k routes' hNew
    by_cases hk : k = m
    · subst hk
      rw [lookup_setRoutesOf_self] at hNew
      cases hNew
      exact hSorted
    · rw [lookup_setRoutesOf_ne hk] at hNew
      exact h.links hNew

/-! ## The operations, counted -/

/-- What a member's entry in a route does to the heaps. -/
theorem MemberAdded.counts {r m : Nat} (h : MemberAdded place s r m s') :
    (∀ k, s'.membersOf k = if k = r then m ::ₘ s.membersOf r else s.membersOf k) ∧
      ∀ k, s'.linksOf k = if k = m then r ::ₘ s.linksOf m else s.linksOf k := by
  obtain ⟨route, routes, members', routes', hRoute, -, hm, hAdded, hAdded', rfl⟩ := h.heaps
  constructor
  · intro k
    rw [membersOf_setRoutesOf, membersOf_setRoute (lt_of_getElem? hRoute), membersOf_eq hRoute]
    split
    · exact Quotient.sound hAdded.perm
    · rfl
  · intro k
    rw [linksOf_setRoutesOf, linksOf_setRoute, linksOf_eq hm]
    split
    · exact Quotient.sound hAdded'.perm
    · rfl

theorem MemberAdded.ordered {r m : Nat} (h : MemberAdded place s r m s') (hValid : s.Valid)
    (hOrdered : Ordered place M s) (hM : Orders voidPtrCompare M) (hm : m ∈ M) (hPlace : Places place s) :
    Ordered place M s' := by
  obtain ⟨route, routes, members', routes', hRoute, -, hLookup, hAdded, hAdded', rfl⟩ := h.heaps
  obtain ⟨hIn, -⟩ := hOrdered.members hRoute
  have hIn' : ∀ x ∈ m :: route.members.members, x ∈ M := List.forall_mem_cons.mpr ⟨hm, hIn⟩
  have hLt : ∀ x ∈ r :: routes.members, x < s.routes.length :=
    List.forall_mem_cons.mpr ⟨lt_of_getElem? hRoute, (hValid.links hLookup).2⟩
  have hSorted := hAdded.sorted (hM.toPreorders.mono hIn')
  have hSorted' := hAdded'.sorted (hPlace.toPreorders.mono hLt)
  apply Ordered.setRoutesOf _ m hSorted'
  apply hOrdered.setRoute (lt_of_getElem? hRoute) _ hSorted
  intro x hx
  exact hIn' x (hAdded.perm.mem_iff.mp hx)

/-- The rest of the state is as it was. -/
structure Kept (s s' : Routing C) : Prop where
  tree : SameTree s s'
  valid : s'.Valid
  errno : s'.errno = s.errno

theorem Kept.trans {t : Routing C} (h : Kept s t) (h' : Kept t s') : Kept s s' :=
  ⟨h.tree.trans h'.tree, h'.valid, h'.errno.trans h.errno⟩

/-- Members are taken out only. -/
def Shrinks (s s' : Routing C) : Prop := ∀ k, s'.membersOf k ≤ s.membersOf k

/-- `Heap_delete(r->members, member)` takes out one occurrence, if the addresses are ordered. -/
theorem Valid.deleteMember_spec (hLib : lib.Sound) (hValid : s.Valid) (m : Nat) {r : Nat}
    (hr : r < s.routes.length) :
    Barring {noMemory} (deleteMember lib m s r) fun s' =>
      Kept s s' ∧ Shrinks s s' ∧ s'.members = s.members ∧
        ∀ place M, Ordered place M s → Orders voidPtrCompare M → m ∈ M → Ordered place M s' ∧
          ∀ k, s'.membersOf k = if k = r then (s.membersOf r).erase m else s.membersOf k := by
  obtain ⟨route, hRoute⟩ := getElem?_routes hr
  rw [deleteMember, bind_of_ok (route_eq hRoute)]
  apply (Heap.delete_spec hLib (hValid.heaps hRoute).1).bind
  rintro ⟨members', b⟩ hDeleted
  refine .pure ⟨⟨sameTree_setRoute hRoute members', hValid.setRoute hRoute hDeleted.valid, rfl⟩, ?_, rfl, ?_⟩
  · intro k
    rw [membersOf_setRoute hr]
    split
    · rename_i hSame
      rw [hSame, membersOf_eq hRoute]
      exact hDeleted.sublist.subperm
    · exact le_refl _
  · intro place M hOrdered hM hm
    obtain ⟨hIn, hSorted⟩ := hOrdered.members hRoute
    obtain ⟨hPerm, hSorted', -⟩ := hDeleted.erase hM hIn hm hSorted
    constructor
    · apply hOrdered.setRoute hr _ hSorted'
      intro x hx
      exact hIn x (hDeleted.sublist.mem hx)
    · intro k
      rw [membersOf_setRoute hr, membersOf_eq hRoute]
      split
      · exact Quotient.sound hPerm
      · rfl

/-- The members that are there stay. -/
def SameMembers (s s' : Routing C) : Prop := ∀ m, s'.Live m ↔ s.Live m

theorem sameMembers_setRoutesOf {m : Nat} {routes : Heap Nat} (hm : s.members.lookup m = some routes)
    (routes' : Heap Nat) : SameMembers s (s.setRoutesOf m routes') := by
  intro k
  by_cases hk : k = m
  · subst hk
    rw [Live, Live, lookup_setRoutesOf_self, hm]
    rfl
  · rw [Live, Live, lookup_setRoutesOf_ne hk]

/-- `Heap_delete(member->routes, r)` -/
theorem Valid.deleteRoute_spec (hLib : lib.Sound) (place : Nat → Nat) (hValid : s.Valid) {m : Nat}
    {routes : Heap Nat} (hm : s.members.lookup m = some routes) {r : Nat} (hr : r < s.routes.length) :
    Barring {noMemory} (deleteRoute lib place m s r) fun s' =>
      Kept s s' ∧ s'.routes = s.routes ∧ SameMembers s s' ∧
        ∀ M, Ordered place M s → Places place s → Ordered place M s' ∧
          ∀ k, s'.linksOf k = if k = m then (s.linksOf m).erase r else s.linksOf k := by
  rw [deleteRoute, bind_of_ok (routesOf_eq hm)]
  obtain ⟨hHeap, hLt⟩ := hValid.links hm
  apply (Heap.delete_spec hLib hHeap).bind
  rintro ⟨routes', b⟩ hDeleted
  refine .pure ⟨⟨sameTree_setRoutesOf s m routes', ?_, rfl⟩, rfl, sameMembers_setRoutesOf hm routes', ?_⟩
  · apply hValid.setMember m hDeleted.valid
    intro x hx
    exact hLt x (hDeleted.sublist.mem hx)
  · intro M hOrdered hPlace
    obtain ⟨hPerm, hSorted, -⟩ := hDeleted.erase hPlace hLt hr (hOrdered.links hm)
    refine ⟨hOrdered.setRoutesOf m hSorted, ?_⟩
    intro k
    rw [linksOf_setRoutesOf, linksOf_eq hm]
    split
    · exact Quotient.sound hPerm
    · rfl

/-- The loop of `Route_unregister_all`: one occurrence less for every entry -/
theorem Valid.deleteAll_spec (hLib : lib.Sound) (m : Nat) {rs : List Nat} (hValid : s.Valid)
    (hrs : ∀ r ∈ rs, r < s.routes.length) :
    Barring {noMemory} (rs.foldlM (deleteMember lib m) s) fun s' =>
      Kept s s' ∧ Shrinks s s' ∧ s'.members = s.members ∧
        ∀ place M, Ordered place M s → Orders voidPtrCompare M → m ∈ M → Ordered place M s' ∧
          ∀ k, s'.membersOf k = s.membersOf k - Multiset.replicate (rs.count k) m := by
  induction rs generalizing s with
  | nil =>
    refine .pure ⟨⟨.refl s, hValid, rfl⟩, fun _ => le_refl _, rfl, ?_⟩
    intro place M hOrdered _ _
    exact ⟨hOrdered, fun k => (tsub_zero _).symm⟩
  | cons r rs ih =>
    obtain ⟨hr, hRest⟩ := List.forall_mem_cons.mp hrs
    rw [List.foldlM_cons]
    apply (hValid.deleteMember_spec hLib m hr).bind
    rintro t ⟨hKept, hShrinks, hMembers, hCounts⟩
    apply (ih hKept.valid fun k hk => hKept.tree.length.symm ▸ hRest k hk).mono
    rintro s' ⟨hKept', hShrinks', hMembers', hCounts'⟩
    refine ⟨hKept.trans hKept', fun k => (hShrinks' k).trans (hShrinks k), hMembers'.trans hMembers, ?_⟩
    intro place M hOrdered hM hm
    obtain ⟨hOrderedT, hOne⟩ := hCounts place M hOrdered hM hm
    obtain ⟨hOrdered', hAll⟩ := hCounts' place M hOrderedT hM hm
    refine ⟨hOrdered', ?_⟩
    intro k
    rw [hAll, hOne, List.count_cons]
    by_cases hk : k = r
    · subst hk
      rw [if_pos rfl, beq_self_eq_true, if_pos rfl, Multiset.replicate_succ, Multiset.sub_cons]
    · rw [if_neg hk, if_neg (by simpa using Ne.symm hk), Nat.add_zero]

theorem Valid.findLoop_ok (hValid : s.Valid) {t : Stackish.Tree D} {i r : Nat} (hr : r < s.routes.length) :
    ∃ u k, s.findLoop i r t = .ok (u, k) ∧ (u = s ∨ u = s.cleared) ∧
      ∀ r, k = some r → u = s ∧ r < s.routes.length := by
  induction t generalizing i r with
  | nil =>
    refine ⟨s, some r, rfl, .inl rfl, ?_⟩
    rintro r ⟨⟩
    exact ⟨rfl, hr⟩
  | node n child sibling _ ih =>
    rw [Routing.findLoop]
    split
    · split
      · obtain ⟨route, hRoute⟩ := getElem?_routes hr
        obtain ⟨c, hFind, hNamed⟩ := hValid.findChild_spec hRoute n.name
        rw [bind_of_ok hFind]
        cases c with
        | some c => exact ih (hValid.forward hRoute c hNamed.1).2
        | none => exact ⟨s, none, rfl, .inl rfl, by simp⟩
      · exact ih hr
    · exact ⟨s.cleared, none, rfl, .inr rfl, by simp⟩

theorem Valid.find_ok (hValid : s.Valid) (hRoot : 0 < s.routes.length) (n : Stackish.Tree D) :
    ∃ u k, s.find n = .ok (u, k) ∧ (u = s ∨ u = s.cleared) ∧
      ∀ r, k = some r → u = s ∧ r < s.routes.length := by
  cases n with
  | nil => exact ⟨s, none, rfl, .inl rfl, by simp⟩
  | node d child sibling =>
    obtain ⟨route, hRoute⟩ := getElem?_routes hRoot
    obtain ⟨c, hFind, hNamed⟩ := hValid.findChild_spec hRoute d.name
    rw [Routing.find, bind_of_ok hFind]
    cases c with
    | some c => exact hValid.findLoop_ok (hValid.forward hRoute c hNamed.1).2
    | none => exact ⟨s, none, rfl, .inl rfl, by simp⟩

/-- The member is taken out of the route and the route out of the member, once if the addresses are
ordered. -/
structure Unregistered (place : Nat → Nat) (s : Routing C) (r m : Nat) (s' : Routing C) : Prop where
  kept : Kept s s'
  shrinks : Shrinks s s'
  same : SameMembers s s'
  counts : ∀ M, Ordered place M s → Orders voidPtrCompare M → m ∈ M → Places place s → Ordered place M s' ∧
    (∀ k, s'.membersOf k = if k = r then (s.membersOf r).erase m else s.membersOf k) ∧
    ∀ k, s'.linksOf k = if k = m then (s.linksOf m).erase r else s.linksOf k

theorem Valid.unregister_spec (hLib : lib.Sound) (place : Nat → Nat) (hValid : s.Valid)
    (hRoot : 0 < s.routes.length) {n : Stackish.Tree D} (hn : n ≠ .nil) {m : Nat} {routes : Heap Nat}
    (hLookup : s.members.lookup m = some routes) :
    Barring {noMemory} (s.unregister lib place n m) fun u =>
      (u.2 = false ∧ (u.1 = s ∨ u.1 = s.cleared) ∧ ∃ t, s.find n = .ok (t, none)) ∨
        (u.2 = true ∧ ∃ r, s.find n = .ok (s, some r) ∧ r < s.routes.length ∧
          Unregistered place s r m u.1) := by
  obtain ⟨u, k, hFind, hState, hSome⟩ := hValid.find_ok hRoot n
  rw [unregister.eq_2 _ _ _ _ _ hn, bind_of_ok hFind]
  cases k with
  | none => exact .pure (.inl ⟨rfl, hState, u, hFind⟩)
  | some r =>
    obtain ⟨rfl, hr⟩ := hSome r rfl
    apply (hValid.deleteMember_spec hLib m hr).bind
    rintro t ⟨hKept, hShrinks, hMembers, hCounts⟩
    have hLookupT : t.members.lookup m = some routes := by rw [hMembers, hLookup]
    have hLength := hKept.tree.length
    apply (hKept.valid.deleteRoute_spec hLib place hLookupT (hLength.symm ▸ hr)).bind
    rintro v ⟨hKept', hRoutes, hSame, hCounts'⟩
    refine .pure (.inr ⟨rfl, r, hFind, hr, hKept.trans hKept', ?_, ?_, ?_⟩)
    · intro k
      rw [membersOf_congr hRoutes]
      exact hShrinks k
    · intro k
      rw [hSame, Live, Live, hMembers]
    · intro M hOrdered hM hm hPlace
      obtain ⟨hOrderedT, hOne⟩ := hCounts place M hOrdered hM hm
      obtain ⟨hOrdered', hLinks⟩ := hCounts' M hOrderedT (hPlace.mono hLength.le)
      refine ⟨hOrdered', ?_, ?_⟩
      · intro k
        rw [membersOf_congr hRoutes, hOne]
      · intro k
        rw [hLinks, linksOf_congr hMembers, linksOf_congr hMembers]

/-- No route of the member is left, and if the addresses are ordered as many occurrences are taken out
of each route. -/
structure UnregisteredAll (s : Routing C) (m : Nat) (s' : Routing C) : Prop where
  kept : Kept s s'
  shrinks : Shrinks s s'
  same : SameMembers s s'
  links : ∀ k, s'.linksOf k = if k = m then 0 else s.linksOf k
  counts : ∀ place M, Ordered place M s → Orders voidPtrCompare M → m ∈ M → Ordered place M s' ∧
    ∀ k, s'.membersOf k = s.membersOf k - Multiset.replicate ((s.linksOf m).count k) m

theorem Valid.unregisterAll_spec (hLib : lib.Sound) (hValid : s.Valid) {m : Nat} {routes : Heap Nat}
    (hLookup : s.members.lookup m = some routes) :
    Barring {noMemory} (s.unregisterAll lib m) (UnregisteredAll s m) := by
  obtain ⟨hHeap, hLt⟩ := hValid.links hLookup
  rw [unregisterAll, bind_of_ok (routesOf_eq hLookup)]
  apply (Valid.deleteAll_spec hLib m hValid hLt).bind
  rintro t ⟨hKept, hShrinks, hMembers, hCounts⟩
  have hLookupT : t.members.lookup m = some routes := by rw [hMembers, hLookup]
  refine .pure ⟨⟨hKept.tree.trans (sameTree_setRoutesOf t m routes.clear), ?_, hKept.errno⟩, hShrinks, ?_, ?_, ?_⟩
  · apply hKept.valid.setMember m (Heap.clear_valid hHeap)
    intro r hr
    cases hr
  · intro k
    rw [sameMembers_setRoutesOf hLookupT, Live, Live, hMembers]
  · intro k
    rw [linksOf_setRoutesOf, linksOf_congr hMembers]
    rfl
  · intro place M hOrdered hM hm
    obtain ⟨hOrderedT, hAll⟩ := hCounts place M hOrdered hM hm
    refine ⟨hOrderedT.setRoutesOf m List.Pairwise.nil, ?_⟩
    intro k
    rw [membersOf_setRoutesOf, hAll, linksOf_eq hLookup, Multiset.coe_count]

/-! ## The links stay mutual -/

/-- A member stands in a route as often as the route in the member. -/
def Linked (s : Routing C) : Prop := ∀ r m, (s.membersOf r).count m = (s.linksOf m).count r

theorem Linked.congr (h : Linked s) (hMembers : ∀ r, s'.membersOf r = s.membersOf r)
    (hLinks : ∀ m, s'.linksOf m = s.linksOf m) : Linked s' := by
  intro r m
  rw [hMembers, hLinks]
  exact h r m

theorem Linked.added (h : Linked s) {r m : Nat} (hAdded : MemberAdded place s r m s') : Linked s' := by
  obtain ⟨hMembers, hLinks⟩ := hAdded.counts
  intro k x
  rw [hMembers, hLinks]
  have hOld := h k x
  by_cases hk : k = r <;> by_cases hx : x = m
  · subst hk hx
    rw [if_pos rfl, if_pos rfl, Multiset.count_cons_self, Multiset.count_cons_self, hOld]
  · subst hk
    rw [if_pos rfl, if_neg hx, Multiset.count_cons_of_ne hx, hOld]
  · subst hx
    rw [if_neg hk, if_pos rfl, Multiset.count_cons_of_ne hk, hOld]
  · rw [if_neg hk, if_neg hx, hOld]

theorem Linked.erased (h : Linked s) {r m : Nat}
    (hMembers : ∀ k, s'.membersOf k = if k = r then (s.membersOf r).erase m else s.membersOf k)
    (hLinks : ∀ k, s'.linksOf k = if k = m then (s.linksOf m).erase r else s.linksOf k) : Linked s' := by
  intro k x
  rw [hMembers, hLinks]
  have hOld := h k x
  by_cases hk : k = r <;> by_cases hx : x = m
  · subst hk hx
    rw [if_pos rfl, if_pos rfl, Multiset.count_erase_self, Multiset.count_erase_self, hOld]
  · subst hk
    rw [if_pos rfl, if_neg hx, Multiset.count_erase_of_ne hx, hOld]
  · subst hx
    rw [if_neg hk, if_pos rfl, Multiset.count_erase_of_ne hk, hOld]
  · rw [if_neg hk, if_neg hx, hOld]

/-- As many occurrences as there are: all of them. -/
theorem sub_replicate_count (A : Multiset Nat) (m : Nat) :
    A - Multiset.replicate (A.count m) m = A.filter (· ≠ m) := by
  ext x
  rw [Multiset.count_sub, Multiset.count_replicate, Multiset.count_filter]
  by_cases hx : x = m
  · subst hx
    rw [if_pos rfl, if_neg (by simp), Nat.sub_self]
  · rw [if_neg (Ne.symm hx), if_pos hx, Nat.sub_zero]

/-- Of a member that is unregistered everywhere nothing is left. -/
theorem Linked.membersOf_unregisteredAll (h : Linked s) {m : Nat} (hGone : UnregisteredAll s m s')
    (hOrdered : Ordered place M s) (hM : Orders voidPtrCompare M) (hm : m ∈ M) (r : Nat) :
    s'.membersOf r = (s.membersOf r).filter (· ≠ m) := by
  rw [(hGone.counts place M hOrdered hM hm).2, ← h r m, sub_replicate_count]

theorem Linked.unregisteredAll (h : Linked s) {m : Nat} (hGone : UnregisteredAll s m s')
    (hOrdered : Ordered place M s) (hM : Orders voidPtrCompare M) (hm : m ∈ M) : Linked s' := by
  intro r x
  rw [h.membersOf_unregisteredAll hGone hOrdered hM hm, hGone.links, Multiset.count_filter]
  by_cases hx : x = m
  · subst hx
    rw [if_pos rfl, if_neg (by simp), Multiset.count_zero]
  · rw [if_neg hx, if_pos hx, h r x]

/-! ## What a step does -/

theorem Valid.withErrno (hValid : s.Valid) (errno : Nat) : (s.withErrno errno).Valid :=
  ⟨hValid.heaps, hValid.forward, hValid.names, hValid.sorted, hValid.links⟩

theorem Valid.forget (hValid : s.Valid) (m : Nat) : (s.forget m).Valid := by
  refine ⟨hValid.heaps, hValid.forward, hValid.names, hValid.sorted, ?_⟩
  intro k routes hk
  by_cases hSame : k = m
  · subst hSame
    rw [Routing.forget, AList.lookup_erase] at hk
    cases hk
  · rw [Routing.forget, AList.lookup_erase_ne hSame] at hk
    exact hValid.links hk

/-- All that a step can do to the tree. -/
def Stepped (lib : HeapLib) (place : Nat → Nat) (s : Routing C) : RouteAct C D → Routing C → Prop
  | .login m, s' => s' = s.login m
  | .service errno n callback, s' => ∃ t, t.Valid ∧ Extends 0 (s.withErrno errno) t ∧
      (s' = t.cleared ∨ (errno = 0 ∧ ∃ r route, add lib (pathOf n) 0 (s.withErrno errno) = .ok (t, some r) ∧
        t.routes[r]? = some route ∧ s' = t.setRoute r { route with callback := some callback }))
  | .call (.register errno n m), s' => ∃ t b, Registered lib place (s.withErrno errno) n m t (s', b)
  | .call (.unregister errno n m), s' => s' = s.withErrno errno ∨ s' = s.cleared ∨
      ∃ r, (s.withErrno errno).find n = .ok (s.withErrno errno, some r) ∧ r < s.routes.length ∧
        Unregistered place (s.withErrno errno) r m s'
  | .call (.unregisterAll m), s' => UnregisteredAll s m s'
  | .close m, s' => ∃ t, UnregisteredAll s m t ∧ s' = t.forget m

theorem Live.lookup {m : Nat} (h : s.Live m) : ∃ routes, s.members.lookup m = some routes :=
  Option.isSome_iff_exists.mp h

theorem Valid.stepped (hLib : lib.Sound) (hValid : s.Valid) (hRoot : 0 < s.routes.length) {act : RouteAct C D}
    (hReady : s.Ready M act) (hStep : s.step lib place act = .ok s') : Stepped lib place s act s' := by
  match act with
  | .login m =>
    cases hStep
    rfl
  | .service errno n callback =>
    have hn : n ≠ .nil := by
      rintro rfl
      cases hStep
    obtain ⟨⟨u, b⟩, hCall, hPure⟩ := bind_eq_ok_iff.mp hStep
    cases hPure
    obtain ⟨t, hValidT, hExtends, hSame | ⟨-, hErrno, hRoute⟩⟩ :=
      ((hValid.withErrno errno).registerCallback_spec hLib hRoot hn callback).of_ok hCall
    · cases hSame
      exact ⟨t, hValidT, hExtends, .inl rfl⟩
    · exact ⟨t, hValidT, hExtends, .inr ⟨hErrno, hRoute⟩⟩
  | .call (.register errno n m) =>
    have hn : n ≠ .nil := by
      rintro rfl
      cases hStep
    obtain ⟨routes, hLookup⟩ := hReady.lookup
    obtain ⟨⟨u, b⟩, hCall, hPure⟩ := bind_eq_ok_iff.mp hStep
    cases hPure
    obtain ⟨t, hRegistered⟩ := ((hValid.withErrno errno).register_spec hLib place hRoot hn hLookup).of_ok hCall
    exact ⟨t, b, hRegistered⟩
  | .call (.unregister errno n m) =>
    have hn : n ≠ .nil := by
      rintro rfl
      cases hStep
    obtain ⟨routes, hLookup⟩ := hReady.lookup
    obtain ⟨⟨u, b⟩, hCall, hPure⟩ := bind_eq_ok_iff.mp hStep
    cases hPure
    obtain ⟨-, hSame | hSame, -⟩ | ⟨-, r, hFind, hr, hGone⟩ :=
      ((hValid.withErrno errno).unregister_spec hLib place hRoot hn hLookup).of_ok hCall
    · exact .inl hSame
    · exact .inr (.inl hSame)
    · exact .inr (.inr ⟨r, hFind, hr, hGone⟩)
  | .call (.unregisterAll m) =>
    obtain ⟨routes, hLookup⟩ := hReady.lookup
    exact (hValid.unregisterAll_spec hLib hLookup).of_ok hStep
  | .close m =>
    obtain ⟨routes, hLookup⟩ := hReady.lookup
    obtain ⟨t, hCall, hPure⟩ := bind_eq_ok_iff.mp hStep
    cases hPure
    exact ⟨t, (hValid.unregisterAll_spec hLib hLookup).of_ok hCall, rfl⟩

theorem Stepped.valid {act : RouteAct C D} (h : Stepped lib place s act s') (hValid : s.Valid) :
    s'.Valid ∧ s.routes.length ≤ s'.routes.length := by
  match act, h with
  | .login m, h =>
    obtain rfl : s' = s.login m := h
    exact ⟨hValid.login m, Nat.le_refl _⟩
  | .service errno n callback, ⟨t, hValidT, hExtends, hCase⟩ =>
    obtain rfl | ⟨-, r, route, -, hRoute, rfl⟩ := hCase
    · exact ⟨hValidT.cleared, hExtends.le⟩
    · exact ⟨hValidT.setCallback hRoute callback, hExtends.le.trans List.length_set.symm.le⟩
  | .call (.register errno n m), ⟨t, b, hRegistered⟩ =>
    obtain ⟨hSame, -⟩ | ⟨-, -, r, -, -, -, -, hAdded⟩ := hRegistered.result
    · cases hSame
      exact ⟨hRegistered.valid.cleared, hRegistered.extends'.le⟩
    · exact ⟨hAdded.valid hRegistered.valid,
        hRegistered.extends'.le.trans hAdded.sameTree.length.symm.le⟩
  | .call (.unregister errno n m), h =>
    obtain rfl | rfl | ⟨r, -, -, hGone⟩ := h
    · exact ⟨hValid.withErrno errno, Nat.le_refl _⟩
    · exact ⟨hValid.cleared, Nat.le_refl _⟩
    · exact ⟨hGone.kept.valid, hGone.kept.tree.length.symm.le⟩
  | .call (.unregisterAll m), hGone => exact ⟨hGone.kept.valid, hGone.kept.tree.length.symm.le⟩
  | .close m, ⟨t, hGone, hForget⟩ =>
    subst hForget
    exact ⟨hGone.kept.valid.forget m, hGone.kept.tree.length.symm.le⟩

theorem Reachable.valid (hLib : lib.Sound) (h : Reachable lib place D M s) :
    s.Valid ∧ 0 < s.routes.length := by
  induction h with
  | root hRoot =>
    obtain ⟨hValid, hLength, -⟩ := createRoot_valid hRoot
    exact ⟨hValid, hLength ▸ Nat.one_pos⟩
  | step _ hReady hStep ih =>
    obtain ⟨hValid, hLe⟩ := (ih.1.stepped hLib ih.2 hReady hStep).valid ih.1
    exact ⟨hValid, Nat.lt_of_lt_of_le ih.2 hLe⟩

/-- The heaps are in order and the links are mutual. -/
structure Consistent (place : Nat → Nat) (M : Set Nat) (s : Routing C) : Prop where
  ordered : Ordered place M s
  linked : Linked s
  live : ∀ m, s.Live m → m ∈ M

theorem Consistent.withErrno (h : Consistent place M s) (errno : Nat) : Consistent place M (s.withErrno errno) :=
  ⟨h.ordered.congr rfl rfl, h.linked.congr (fun _ => rfl) fun _ => rfl, h.live⟩

theorem Consistent.extends (h : Consistent place M s) {start : Nat} (hExtends : Extends start s s') :
    Consistent place M s' where
  ordered := h.ordered.extends hExtends
  linked := h.linked.congr hExtends.membersOf (linksOf_congr hExtends.members)
  live := by
    intro m hm
    rw [Live, hExtends.members] at hm
    exact h.live m hm

theorem Consistent.added (h : Consistent place M s) (hValid : s.Valid) (hM : Orders voidPtrCompare M)
    (hPlace : Places place s) {r m : Nat} (hm : s.Live m) (hAdded : MemberAdded place s r m s') :
    Consistent place M s' where
  ordered := hAdded.ordered hValid h.ordered hM (h.live m hm) hPlace
  linked := h.linked.added hAdded
  live := by
    obtain ⟨route, routes, members', routes', -, -, hLookup, -, -, rfl⟩ := hAdded.heaps
    intro k hk
    by_cases hSame : k = m
    · subst hSame
      exact h.live k hm
    · rw [Live, lookup_setRoutesOf_ne hSame] at hk
      exact h.live k hk

theorem Consistent.setCallback (h : Consistent place M s) {r : Nat} {route : Route C}
    (hRoute : s.routes[r]? = some route) (callback : C) :
    Consistent place M (s.setRoute r { route with callback := some callback }) where
  ordered := by
    obtain ⟨hIn, hSorted⟩ := h.ordered.members hRoute
    exact h.ordered.setRoute (lt_of_getElem? hRoute) hIn hSorted
  linked := by
    refine Linked.congr h.linked ?_ fun _ => rfl
    intro k
    rw [membersOf_setRoute (lt_of_getElem? hRoute)]
    split
    · rename_i hSame
      rw [hSame, membersOf_eq hRoute]
    · rfl
  live := h.live

theorem Consistent.unregisteredAll (h : Consistent place M s) (hM : Orders voidPtrCompare M) {m : Nat}
    (hm : s.Live m) (hGone : UnregisteredAll s m s') : Consistent place M s' where
  ordered := (hGone.counts place M h.ordered hM (h.live m hm)).1
  linked := h.linked.unregisteredAll hGone h.ordered hM (h.live m hm)
  live := fun k hk => h.live k ((hGone.same k).mp hk)

theorem linksOf_forget (s : Routing C) (m k : Nat) :
    (s.forget m).linksOf k = if k = m then 0 else s.linksOf k := by
  split
  · rename_i hSame
    subst hSame
    rw [linksOf, Routing.forget, AList.lookup_erase]
    rfl
  · rename_i hNe
    rw [linksOf, Routing.forget, AList.lookup_erase_ne hNe]
    rfl

theorem Consistent.forget (h : Consistent place M s) {m : Nat} (hGone : s.linksOf m = 0) :
    Consistent place M (s.forget m) where
  ordered := by
    refine ⟨h.ordered.members, ?_⟩
    intro k routes hk
    by_cases hSame : k = m
    · subst hSame
      rw [Routing.forget, AList.lookup_erase] at hk
      cases hk
    · rw [Routing.forget, AList.lookup_erase_ne hSame] at hk
      exact h.ordered.links hk
  linked := by
    refine Linked.congr h.linked (fun _ => rfl) ?_
    intro k
    rw [linksOf_forget]
    split
    · rename_i hSame
      rw [hSame, hGone]
    · rfl
  live := by
    intro k hk
    by_cases hSame : k = m
    · subst hSame
      rw [Live, Routing.forget, AList.lookup_erase] at hk
      cases hk
    · rw [Live, Routing.forget, AList.lookup_erase_ne hSame] at hk
      exact h.live k hk

theorem Consistent.login (h : Consistent place M s) {m : Nat} (hm : m ∈ M) (hNew : ¬s.Live m) :
    Consistent place M (s.login m) where
  ordered := h.ordered.setRoutesOf m List.Pairwise.nil
  linked := by
    refine Linked.congr h.linked (fun _ => rfl) ?_
    intro k
    rw [Routing.login, linksOf_setRoutesOf]
    split
    · rename_i hSame
      subst hSame
      rw [linksOf, Option.not_isSome_iff_eq_none.mp hNew]
      rfl
    · rfl
  live := by
    intro k hk
    by_cases hSame : k = m
    · subst hSame
      exact hm
    · rw [Live, Routing.login, lookup_setRoutesOf_ne hSame] at hk
      exact h.live k hk

theorem Consistent.stepped (h : Consistent place M s) (hValid : s.Valid) (hM : Orders voidPtrCompare M)
    {act : RouteAct C D} (hReady : s.Ready M act) (hStep : Stepped lib place s act s') (hPlace : Places place s') :
    Consistent place M s' := by
  have hPlaceS : Places place s := hPlace.mono (hStep.valid hValid).2
  match act, hStep with
  | .login m, hStep =>
    obtain rfl : s' = s.login m := hStep
    exact h.login hReady.1 hReady.2
  | .service errno n callback, ⟨t, hValidT, hExtends, hCase⟩ =>
    have hT := (h.withErrno errno).extends hExtends
    obtain rfl | ⟨-, r, route, -, hRoute, rfl⟩ := hCase
    · exact hT.withErrno 0
    · exact hT.setCallback hRoute callback
  | .call (.register errno n m), ⟨t, b, hRegistered⟩ =>
    have hT := (h.withErrno errno).extends hRegistered.extends'
    obtain ⟨hSame, -⟩ | ⟨-, -, r, -, -, -, -, hAdded⟩ := hRegistered.result
    · cases hSame
      exact hT.withErrno 0
    · have hLive : t.Live m := by
        rw [Live, hRegistered.extends'.members]
        exact hReady
      exact hT.added hRegistered.valid hM (hPlace.mono hAdded.sameTree.length.symm.le) hLive hAdded
  | .call (.unregister errno n m), hStep =>
    obtain rfl | rfl | ⟨r, -, -, hGone⟩ := hStep
    · exact h.withErrno errno
    · exact h.withErrno 0
    · have hE := h.withErrno errno
      obtain ⟨hOrdered, hMembers, hLinks⟩ := hGone.counts M hE.ordered hM (h.live m hReady) hPlaceS
      exact ⟨hOrdered, hE.linked.erased hMembers hLinks, fun k hk => h.live k ((hGone.same k).mp hk)⟩
  | .call (.unregisterAll m), hGone => exact h.unregisteredAll hM hReady hGone
  | .close m, ⟨t, hGone, hForget⟩ =>
    subst hForget
    apply (h.unregisteredAll hM hReady hGone).forget
    rw [hGone.links, if_pos rfl]

theorem createRoot_membersOf {name : Option Bytes} (h : createRoot name = .ok s) (r : Nat) : s.membersOf r = 0 := by
  cases hRoute : s.routes[r]? with
  | none =>
    rw [membersOf, hRoute]
    rfl
  | some route =>
    rw [membersOf_eq hRoute, (createRoot_route h hRoute).2.1]
    rfl

theorem createRoot_consistent {name : Option Bytes} (h : createRoot name = .ok s) : Consistent place M s := by
  obtain ⟨-, -, hMembers, -⟩ := createRoot_valid h
  have hNone : ∀ m, s.members.lookup m = none := fun m => by rw [hMembers, AList.lookup_empty]
  refine ⟨⟨?_, ?_⟩, ?_, ?_⟩
  · intro r route hRoute
    rw [(createRoot_route h hRoute).2.1]
    exact ⟨nofun, List.Pairwise.nil⟩
  · intro m routes hm
    rw [hNone] at hm
    cases hm
  · intro r m
    rw [createRoot_membersOf h, linksOf, hNone, Multiset.count_zero]
    rfl
  · intro m hm
    rw [Live, hNone] at hm
    cases hm

theorem Reachable.consistent (hLib : lib.Sound) (hM : Orders voidPtrCompare M) (h : Reachable lib place D M s)
    (hPlace : Places place s) : Consistent place M s := by
  induction h with
  | root hRoot => exact createRoot_consistent hRoot
  | step hReach hReady hStep ih =>
    obtain ⟨hValid, hRoot⟩ := hReach.valid hLib
    have hStepped := hValid.stepped hLib hRoot hReady hStep
    exact (ih (hPlace.mono (hStepped.valid hValid).2)).stepped hValid hM hReady hStepped hPlace

/-- A member stands in each route as often as the route in the member, and a member that is unregistered
everywhere stands in no route any more. -/
theorem members_linked (hLib : lib.Sound) (hM : Orders voidPtrCompare M) (hReach : Reachable lib place D M s)
    (hPlace : Places place s) :
    (∀ r m, (s.membersOf r).count m = (s.linksOf m).count r) ∧
      ∀ m s', s.Live m → s.unregisterAll lib m = .ok s' → ∀ r, m ∉ s'.membersOf r := by
  have hConsistent := hReach.consistent hLib hM hPlace
  refine ⟨hConsistent.linked, ?_⟩
  intro m s' hm hCall r hMem
  obtain ⟨routes, hLookup⟩ := hm.lookup
  have hGone := ((hReach.valid hLib).1.unregisterAll_spec hLib hLookup).of_ok hCall
  rw [hConsistent.linked.membersOf_unregisteredAll hGone hConsistent.ordered hM (hConsistent.live m hm)] at hMem
  exact (Multiset.mem_filter.mp hMem).2 rfl

/-- The member is registered twice for `a`. -/
def doubled : Routing Unit :=
  ⟨[⟨[114], none, .create, ⟨[1], 8⟩⟩, ⟨[97], none, ⟨[1, 1], 8⟩, .create⟩],
    AList.insert 1 ⟨[1, 1], 8⟩ singleAt.members, 0⟩

theorem members_linked_doubled :
    (doubled.membersOf 1).count 1 = 2 ∧ (doubled.linksOf 1).count 1 = 2 ∧
      (∃ s', doubled.unregisterAll plainLib 1 = .ok s' ∧ 1 ∉ s'.membersOf 1) := by
  have hLogin : rootOnly.Ready {1} (.login 1 : RouteAct Unit Unit) := ⟨rfl, by decide⟩
  have hSingle : Reachable plainLib id Unit {1} single := .step (.root createRoot_rootOnly) hLogin rfl
  have hFirst : single.Ready {1} (.call (.register 0 (groupOf 0) 1)) := by rfl
  have hAt : Reachable plainLib id Unit {1} singleAt := .step hSingle hFirst (by rfl)
  have hSecond : singleAt.Ready {1} (.call (.register 0 (groupOf 0) 1)) := by rfl
  have hReach : Reachable plainLib id Unit {1} doubled := .step hAt hSecond (by rfl)
  have hM : Orders voidPtrCompare {1} := by
    apply voidPtrCompare_orders 0
    rintro x rfl
    decide
  have hPlace : Places id doubled := by
    apply voidPtrCompare_orders 0
    intro r hr
    have hLt : r < 2 := hr
    omega
  obtain ⟨hLinked, hGone⟩ := members_linked plainLib_sound hM hReach hPlace
  have hTwo : (doubled.membersOf 1).count 1 = 2 := by decide
  refine ⟨hTwo, (hLinked 1 1).symm.trans hTwo, ?_⟩
  exact ⟨_, rfl, hGone 1 _ (by rfl) rfl 1⟩

end Utu.Hub.Routing
