import Utu.Hub.Links
import Utu.Lib.Trie

/-!
# The routing tree as a map

Read by its names the tree is a trie, and `Route_add` enters a path in it. What
it stands for is a map from paths to multisets of members, together with the
paths that were ever registered: each call on the tree does to its path what
the call says and leaves the other paths alone.
-/

namespace Utu.Hub.Routing
open Comparator Outcome LinkedForest Trie
set_option autoImplicit false

variable {C D : Type} {lib : HeapLib} {place : Nat → Nat} {s s' : Routing C}

/-! ## The trie -/

/-- `Route_find_child` by a name -/
def edges (s : Routing C) : Edges Bytes := fun i l =>
  match s.findChild i (some l) with
  | .ok c => c
  | .error _ => none

/-- No two children of a route have the same name, and no route has two parents. -/
structure Strict (s : Routing C) : Prop where
  distinct : ∀ {i : Nat} {route : Route C}, s.routes[i]? = some route →
    ∀ c ∈ route.children.members, ∀ c' ∈ route.children.members, s.name c = s.name c' → c = c'
  nodup : ∀ {i : Nat} {route : Route C}, s.routes[i]? = some route → route.children.members.Nodup
  parent : ∀ {i i' c : Nat} {route route' : Route C}, s.routes[i]? = some route →
    s.routes[i']? = some route' → c ∈ route.children.members → c ∈ route'.children.members → i = i'

theorem Valid.edges_iff (hValid : s.Valid) (hStrict : Strict s) {i c : Nat} {l : Bytes} :
    s.edges i l = some c ↔
      ∃ route, s.routes[i]? = some route ∧ c ∈ route.children.members ∧ s.name c = some l := by
  cases hRoute : s.routes[i]? with
  | none =>
    have hNone : s.findChild i (some l) = .error .badPointer := by
      rw [findChild, Routing.route, hRoute]
      rfl
    rw [edges, hNone]
    simp
  | some route =>
    obtain ⟨k, hFind, hNamed⟩ := hValid.findChild_spec hRoute (some l)
    rw [edges, hFind]
    cases k with
    | none =>
      constructor
      · intro h
        cases h
      · rintro ⟨route', hSame, hc, hName⟩
        cases hSame
        exact absurd hName (hNamed c hc)
    | some k =>
      constructor
      · intro h
        cases h
        exact ⟨route, rfl, hNamed⟩
      · rintro ⟨route', hSame, hc, hName⟩
        cases hSame
        rw [hStrict.distinct hRoute k hNamed.1 c hc (hNamed.2.trans hName.symm)]

theorem Valid.isTrie (hValid : s.Valid) (hStrict : Strict s) : IsTrie s.edges s.routes.length where
  forward := by
    intro i l j hEdge
    obtain ⟨route, hRoute, hc, -⟩ := (hValid.edges_iff hStrict).mp hEdge
    exact hValid.forward hRoute j hc
  unique := by
    intro i l i' l' j hEdge hEdge'
    obtain ⟨route, hRoute, hc, hName⟩ := (hValid.edges_iff hStrict).mp hEdge
    obtain ⟨route', hRoute', hc', hName'⟩ := (hValid.edges_iff hStrict).mp hEdge'
    refine ⟨hStrict.parent hRoute hRoute' hc hc', ?_⟩
    rw [hName] at hName'
    exact Option.some.inj hName'

theorem Valid.findPath_walk (hValid : s.Valid) {i : Nat} (hi : i < s.routes.length) (p : List Bytes) :
    s.findPath i (p.map some) = .ok (walk s.edges i p) := by
  induction p generalizing i with
  | nil => rfl
  | cons l p ih =>
    obtain ⟨route, hRoute⟩ := getElem?_routes hi
    obtain ⟨k, hFind, hNamed⟩ := hValid.findChild_spec hRoute (some l)
    rw [List.map_cons, walk_cons, edges, hFind]
    cases k with
    | none => exact findPath_none hFind
    | some k =>
      rw [findPath_some hFind]
      exact ih (hValid.forward hRoute k hNamed.1).2

/-- The comparator finds the children in strict order. -/
theorem Strict.sorted (hStrict : Strict s) (hValid : s.Valid) {i : Nat} {route : Route C}
    (hRoute : s.routes[i]? = some route) :
    route.children.members.Pairwise fun x y => s.childrenCompare x y < 0 := by
  have hNe := hStrict.nodup hRoute
  apply (List.Pairwise.and (hValid.sorted hRoute) hNe).imp_of_mem
  rintro x y hx hy ⟨hLe, hDiffer⟩
  obtain ⟨a, hName, hNul⟩ := hValid.name_of_child hRoute hx
  have hZero : s.childrenCompare x y ≠ 0 := by
    rw [childrenCompare, hName, Ne, bstrcmp_eq_zero hNul, ← hName]
    exact fun hSame => hDiffer (hStrict.distinct hRoute x hx y hy hSame)
  omega

theorem Strict.sameTree (hStrict : Strict s) (h : SameTree s s') : Strict s' where
  distinct := by
    intro i route' hNew
    obtain ⟨route, hOld, -, -, hChildren⟩ := h.back hNew
    rw [hChildren]
    intro c hc c' hc' hName
    rw [h.name, h.name] at hName
    exact hStrict.distinct hOld c hc c' hc' hName
  nodup := by
    intro i route' hNew
    obtain ⟨route, hOld, -, -, hChildren⟩ := h.back hNew
    rw [hChildren]
    exact hStrict.nodup hOld
  parent := by
    intro i i' c route₁ route₂ hNew₁ hNew₂ hc₁ hc₂
    obtain ⟨old₁, hOld₁, -, -, hChildren₁⟩ := h.back hNew₁
    obtain ⟨old₂, hOld₂, -, -, hChildren₂⟩ := h.back hNew₂
    rw [hChildren₁] at hc₁
    rw [hChildren₂] at hc₂
    exact hStrict.parent hOld₁ hOld₂ hc₁ hc₂

theorem SameTree.edges (h : SameTree s s') : s'.edges = s.edges := by
  funext i l
  rcases Nat.lt_or_ge i s.routes.length with hLt | hGe
  · rw [Routing.edges, Routing.edges, h.findChild hLt]
  · have hNone : ∀ t : Routing C, t.routes.length ≤ i → t.findChild i (some l) = .error .badPointer := by
      intro t ht
      rw [Routing.findChild, Routing.route, List.getElem?_eq_none_iff.mpr ht]
      rfl
    rw [Routing.edges, Routing.edges, hNone s hGe, hNone s' (h.length ▸ hGe)]

/-! ## A new child is a new edge -/

theorem Grown.children_iff {parent : Nat} {name : Bytes} (h : Grown s parent name s') {i c : Nat}
    {route' : Route C} (hRoute : s'.routes[i]? = some route') :
    c ∈ route'.children.members ↔ (i = parent ∧ c = s.routes.length) ∨
      ∃ route, s.routes[i]? = some route ∧ c ∈ route.children.members := by
  obtain ⟨old, children, hOld, hNew, -, hPerm, -⟩ := h.below
  by_cases hi : i = parent
  · subst hi
    rw [hNew] at hRoute
    cases hRoute
    rw [hPerm.mem_iff, List.mem_cons, hOld]
    simp
  · rcases h.cases hRoute with ⟨rfl, rfl⟩ | ⟨route, hWas, children', rfl, rfl | ⟨rfl, -⟩⟩
    · simp [hi, Heap.create]
    · simp [hWas, hi]
    · exact absurd rfl hi

theorem Grown.strict {parent : Nat} {name : Bytes} (h : Grown s parent name s') (hValid : s.Valid)
    (hStrict : Strict s) (hNone : s.edges parent name = none) : Strict s' where
  distinct := by
    -- an old child of this name would have been found
    have hNew : ∀ {route : Route C}, s.routes[parent]? = some route → ∀ c ∈ route.children.members,
        s'.name c ≠ s'.name s.routes.length := by
      intro route hRoute c hc hSame
      rw [h.name_new, h.name_old (hValid.forward hRoute c hc).2] at hSame
      rw [(hValid.edges_iff hStrict).mpr ⟨route, hRoute, hc, hSame⟩] at hNone
      cases hNone
    intro i route' hRoute c hc c' hc' hName
    rcases (h.children_iff hRoute).mp hc with ⟨rfl, rfl⟩ | ⟨route, hOld, hc⟩ <;>
      rcases (h.children_iff hRoute).mp hc' with ⟨hi, rfl⟩ | ⟨route₁, hOld₁, hc'⟩
    · rfl
    · exact absurd hName.symm (hNew hOld₁ c' hc')
    · subst hi
      exact absurd hName (hNew hOld c hc)
    · rw [hOld] at hOld₁
      cases hOld₁
      rw [h.name_old (hValid.forward hOld c hc).2, h.name_old (hValid.forward hOld c' hc').2] at hName
      exact hStrict.distinct hOld c hc c' hc' hName
  nodup := by
    intro i route' hRoute
    rcases h.cases hRoute with ⟨-, rfl⟩ | ⟨route, hOld, children, rfl, rfl | ⟨-, -, hPerm, -⟩⟩
    · exact List.nodup_nil
    · exact hStrict.nodup hOld
    · apply hPerm.nodup_iff.mpr
      apply List.nodup_cons.mpr
      refine ⟨?_, hStrict.nodup hOld⟩
      intro hMem
      exact Nat.lt_irrefl _ (hValid.forward hOld _ hMem).2
  parent := by
    intro i i' c route₁ route₂ hRoute₁ hRoute₂ hc₁ hc₂
    rcases (h.children_iff hRoute₁).mp hc₁ with ⟨rfl, rfl⟩ | ⟨old₁, hOld₁, hc₁⟩ <;>
      rcases (h.children_iff hRoute₂).mp hc₂ with ⟨rfl, hc⟩ | ⟨old₂, hOld₂, hc₂⟩
    · rfl
    · exact absurd (hValid.forward hOld₂ _ hc₂).2 (Nat.lt_irrefl _)
    · subst hc
      exact absurd (hValid.forward hOld₁ _ hc₁).2 (Nat.lt_irrefl _)
    · exact hStrict.parent hOld₁ hOld₂ hc₁ hc₂

theorem Grown.edges {parent : Nat} {name : Bytes} (h : Grown s parent name s') (hValid : s.Valid)
    (hStrict : Strict s) (hNul : 0 ∉ name) (hNone : s.edges parent name = none) :
    s'.edges = link s.edges parent name s.routes.length := by
  have hValid' := h.valid hValid hNul
  have hStrict' := h.strict hValid hStrict hNone
  funext i l
  apply Option.ext
  intro c
  rw [hValid'.edges_iff hStrict']
  constructor
  · rintro ⟨route', hRoute, hc, hName⟩
    rcases (h.children_iff hRoute).mp hc with ⟨rfl, rfl⟩ | ⟨route, hOld, hc⟩
    · rw [h.name_new] at hName
      cases hName
      exact link_self
    · rw [h.name_old (hValid.forward hOld c hc).2] at hName
      exact link_keeps hNone ((hValid.edges_iff hStrict).mpr ⟨route, hOld, hc, hName⟩)
  · intro hLink
    rcases link_cases hLink with ⟨rfl, rfl, rfl⟩ | hEdge
    · obtain ⟨route, children, -, hNew, -⟩ := h.below
      exact ⟨_, hNew, (h.children_iff hNew).mpr (.inl ⟨rfl, rfl⟩), h.name_new⟩
    · obtain ⟨route, hOld, hc, hName⟩ := (hValid.edges_iff hStrict).mp hEdge
      obtain ⟨route', hNew, -⟩ := h.extends.old hOld
      refine ⟨route', hNew, (h.children_iff hNew).mpr (.inr ⟨route, hOld, hc⟩), ?_⟩
      rw [h.name_old (hValid.forward hOld c hc).2, hName]

/-- `Route_add` enters the path in the trie. -/
theorem Valid.add_edges (hLib : lib.Sound) {p : List Bytes} (hp : p ≠ []) (hNul : ∀ l ∈ p, 0 ∉ l) {parent : Nat}
    (hValid : s.Valid) (hStrict : Strict s) (hParent : parent < s.routes.length) {k : Option Nat}
    (hAdd : add lib (p.map some) parent s = .ok (s', k)) :
    Strict s' ∧ s'.edges = (enter s.edges s.routes.length parent p).1 ∧
      s'.routes.length = (enter s.edges s.routes.length parent p).2 := by
  induction p generalizing parent s with
  | nil => exact absurd rfl hp
  | cons l p ih =>
    obtain ⟨hl, hp'⟩ := List.forall_mem_cons.mp hNul
    rw [List.map_cons, add] at hAdd
    obtain ⟨⟨t, r⟩, hStep, hRest⟩ := bind_eq_ok_iff.mp hAdd
    obtain ⟨hValidT, -, -, hr, -⟩ := (hValid.step_spec hLib hParent (some l)).of_ok hStep
    -- the rest of the path from the child that was found or made
    have hTail : Strict t → Strict s' ∧ s'.edges = (enter t.edges t.routes.length r p).1 ∧
        s'.routes.length = (enter t.edges t.routes.length r p).2 := by
      intro hStrictT
      cases p with
      | nil =>
        cases hRest
        exact ⟨hStrictT, rfl, rfl⟩
      | cons l' p => exact ih (List.cons_ne_nil l' p) hp' hValidT hStrictT hr hRest
    obtain ⟨c, hFind, hStep⟩ := bind_eq_ok_iff.mp hStep
    have hEdge : s.edges parent l = c := by rw [edges, hFind]
    rw [enter, hEdge]
    cases c with
    | some c =>
      cases hStep
      exact hTail hStrict
    | none =>
      obtain ⟨hNew, hGrown⟩ := (hValid.alloc_spec hLib hParent l).of_ok hStep
      dsimp only at hNew hGrown
      subst hNew
      rw [takeWhile_of_no_nul hl] at hGrown
      have hTail' := hTail (hGrown.strict hValid hStrict hEdge)
      rwa [hGrown.edges hValid hStrict hl hEdge, hGrown.length] at hTail'

/-! ## The map -/

/-- The path of a message with a named root. -/
def wordPath (n : Stackish.Tree D) : List Bytes := (pathOf n).reduceOption

def NamedRoot (n : Stackish.Tree D) : Prop := none ∉ pathOf n ∧ n ≠ .nil

/-- What the tree stands for: the paths ever registered, and the members of each. -/
structure Registry where
  paths : List (List Bytes)
  holds : List Bytes → Multiset Nat

def Registry.empty : Registry := ⟨[], fun _ => 0⟩

/-- What a call means. -/
def Registry.after (A : Registry) : Call D → Registry
  | .register _ n m =>
    ⟨wordPath n :: A.paths, Function.update A.holds (wordPath n) (m ::ₘ A.holds (wordPath n))⟩
  | .unregister _ n m => ⟨A.paths, Function.update A.holds (wordPath n) ((A.holds (wordPath n)).erase m)⟩
  | .unregisterAll m => ⟨A.paths, fun p => (A.holds p).filter (· ≠ m)⟩

/-- The tree has the paths ever registered and their beginnings, with their members. -/
structure Refines (s : Routing C) (A : Registry) : Prop where
  paths : ∀ q, q ≠ [] → ((∃ r, walk s.edges 0 q = some r) ↔ ∃ p ∈ A.paths, q <+: p)
  holds : ∀ q r, q ≠ [] → walk s.edges 0 q = some r → s.membersOf r = A.holds q
  absent : ∀ q, walk s.edges 0 q = none → A.holds q = 0

theorem pathOf_eq_map {n : Stackish.Tree D} (hn : none ∉ pathOf n) : pathOf n = (wordPath n).map some := by
  rw [wordPath]
  generalize pathOf n = names at hn ⊢
  induction names with
  | nil => rfl
  | cons name names ih =>
    obtain ⟨hName, hNames⟩ := not_or.mp (List.mem_cons.not.mp hn)
    cases name with
    | none => exact absurd rfl hName
    | some a =>
      rw [List.reduceOption_cons_of_some, List.map_cons, ← ih hNames]

theorem wordPath_ne_nil {n : Stackish.Tree D} (hn : NamedRoot n) : wordPath n ≠ [] := by
  intro h
  have hPath := pathOf_eq_map hn.1
  rw [h] at hPath
  cases n with
  | nil => exact hn.2 rfl
  | node d child sibling => cases hPath

theorem nul_of_nulFree {n : Stackish.Tree D} (hn : none ∉ pathOf n) (hNul : NulFree (pathOf n)) :
    ∀ l ∈ wordPath n, 0 ∉ l := by
  intro l hl
  apply hNul l
  rw [pathOf_eq_map hn]
  exact List.mem_map_of_mem hl

/-- A lookup of a message whose root has a name and that has not too many children. -/
theorem Valid.find_walk (hValid : s.Valid) (hErrno : s.errno = 0) (hRoot : 0 < s.routes.length)
    {n : Stackish.Tree D} (hn : NamedRoot n) (hWidth : width (children n) ≤ routeMaxPath) :
    s.find n = .ok (s, walk s.edges 0 (wordPath n)) := by
  have hPath : s.findPath 0 (pathOf n) = .ok (walk s.edges 0 (wordPath n)) := by
    rw [pathOf_eq_map hn.1]
    exact hValid.findPath_walk hRoot (wordPath n)
  rw [hValid.find_eq hErrno hRoot hn.2 hPath, if_pos hWidth]

section Refinement
variable {A : Registry} {M : Set Nat}

theorem Refines.register (h : Refines s A) (hTrie : IsTrie s.edges s.routes.length)
    (hRoot : 0 < s.routes.length) {p : List Bytes} (hp : p ≠ []) {t : Routing C} {start : Nat}
    (hExtends : Extends start s t) (hEdges : t.edges = (enter s.edges s.routes.length 0 p).1) {r m : Nat}
    (hr : walk t.edges 0 p = some r) (hAdded : MemberAdded place t r m s') :
    Refines s' ⟨p :: A.paths, Function.update A.holds p (m ::ₘ A.holds p)⟩ := by
  have hSame : s'.edges = t.edges := hAdded.sameTree.edges
  have hTrieT : IsTrie t.edges (enter s.edges s.routes.length 0 p).2 := hEdges ▸ hTrie.enter hRoot
  obtain ⟨hMembers, -⟩ := hAdded.counts
  have hKeeps : ∀ {q k}, walk s.edges 0 q = some k → walk t.edges 0 q = some k := by
    intro q k hWalk
    rw [hEdges]
    exact walk_keeps enter_keeps hWalk
  have hNew : ∀ {q k}, walk t.edges 0 q = some k →
      walk s.edges 0 q = some k ∨ (s.routes.length ≤ k ∧ q <+: p) := by
    intro q k hWalk
    rw [hEdges] at hWalk
    exact hTrie.walk_of_enter hRoot (r := []) rfl hWalk
  -- what stood for a path in the tree before the member is entered
  have hHolds : ∀ {q k}, q ≠ [] → walk t.edges 0 q = some k → t.membersOf k = A.holds q := by
    intro q k hq hWalk
    rw [hExtends.membersOf]
    cases hOld : walk s.edges 0 q with
    | some k' =>
      rw [hKeeps hOld] at hWalk
      cases hWalk
      exact h.holds q k hq hOld
    | none =>
      rcases hNew hWalk with hWalk' | ⟨hLe, -⟩
      · rw [hOld] at hWalk'
        cases hWalk'
      · rw [h.absent q hOld, Routing.membersOf, List.getElem?_eq_none_iff.mpr hLe]
        rfl
  constructor
  · intro q hq
    rw [hSame]
    constructor
    · rintro ⟨k, hWalk⟩
      rcases hNew hWalk with hOld | ⟨-, hBegin⟩
      · obtain ⟨p', hp', hBegin⟩ := (h.paths q hq).mp ⟨k, hOld⟩
        exact ⟨p', List.mem_cons_of_mem p hp', hBegin⟩
      · exact ⟨p, List.mem_cons_self, hBegin⟩
    · rintro ⟨p', hp', hBegin⟩
      rcases List.mem_cons.mp hp' with rfl | hp'
      · obtain ⟨w, rfl⟩ := hBegin
        rw [walk_append] at hr
        obtain ⟨k, hWalk, -⟩ := Option.bind_eq_some_iff.mp hr
        exact ⟨k, hWalk⟩
      · obtain ⟨k, hWalk⟩ := (h.paths q hq).mpr ⟨p', hp', hBegin⟩
        exact ⟨k, hKeeps hWalk⟩
  · intro q k hq hWalk
    rw [hSame] at hWalk
    rw [hMembers]
    dsimp only
    by_cases hPath : q = p
    · subst hPath
      rw [hr] at hWalk
      cases hWalk
      rw [if_pos rfl, Function.update_self, hHolds hq hr]
    · have hNe : k ≠ r := by
        rintro rfl
        exact hPath (hTrieT.walk_injective hWalk hr)
      rw [if_neg hNe, Function.update_of_ne hPath, hHolds hq hWalk]
  · intro q hWalk
    rw [hSame] at hWalk
    have hPath : q ≠ p := by
      rintro rfl
      rw [hr] at hWalk
      cases hWalk
    dsimp only
    rw [Function.update_of_ne hPath]
    apply h.absent
    cases hOld : walk s.edges 0 q with
    | none => rfl
    | some k =>
      rw [hKeeps hOld] at hWalk
      cases hWalk

theorem Refines.unregister (h : Refines s A) (hTrie : IsTrie s.edges s.routes.length) {p : List Bytes}
    (hp : p ≠ []) {r m : Nat} (hr : walk s.edges 0 p = some r) (hSame : s'.edges = s.edges)
    (hMembers : ∀ k, s'.membersOf k = if k = r then (s.membersOf r).erase m else s.membersOf k) :
    Refines s' ⟨A.paths, Function.update A.holds p ((A.holds p).erase m)⟩ := by
  constructor
  · rw [hSame]
    exact h.paths
  · intro q k hq hWalk
    rw [hSame] at hWalk
    rw [hMembers]
    dsimp only
    by_cases hPath : q = p
    · subst hPath
      rw [hr] at hWalk
      cases hWalk
      rw [if_pos rfl, Function.update_self, h.holds q r hq hr]
    · have hNe : k ≠ r := by
        rintro rfl
        exact hPath (hTrie.walk_injective hWalk hr)
      rw [if_neg hNe, Function.update_of_ne hPath, h.holds q k hq hWalk]
  · intro q hWalk
    rw [hSame] at hWalk
    have hPath : q ≠ p := by
      rintro rfl
      rw [hr] at hWalk
      cases hWalk
    dsimp only
    rw [Function.update_of_ne hPath, h.absent q hWalk]

/-- A path that is not there holds no member that could be taken out. -/
theorem Refines.unregister_absent (h : Refines s A) {p : List Bytes} (hr : walk s.edges 0 p = none) (m : Nat) :
    Refines s ⟨A.paths, Function.update A.holds p ((A.holds p).erase m)⟩ := by
  have hSame : Function.update A.holds p ((A.holds p).erase m) = A.holds := by
    rw [h.absent p hr]
    have hZero : (0 : Multiset Nat).erase m = A.holds p := by
      rw [h.absent p hr]
      rfl
    rw [hZero, Function.update_eq_self]
  rw [hSame]
  exact h

theorem Refines.unregisterAll (h : Refines s A) {m : Nat} (hSame : s'.edges = s.edges)
    (hMembers : ∀ r, s'.membersOf r = (s.membersOf r).filter (· ≠ m)) :
    Refines s' ⟨A.paths, fun p => (A.holds p).filter (· ≠ m)⟩ := by
  constructor
  · rw [hSame]
    exact h.paths
  · intro q k hq hWalk
    rw [hSame] at hWalk
    rw [hMembers, h.holds q k hq hWalk]
  · intro q hWalk
    rw [hSame] at hWalk
    dsimp only
    rw [h.absent q hWalk]
    rfl

/-! ## Runs of calls -/

/-- A tree that is a trie, without services. -/
structure Treelike (s : Routing C) : Prop where
  valid : s.Valid
  root : 0 < s.routes.length
  strict : Strict s
  external : ∀ {i : Nat} {route : Route C}, s.routes[i]? = some route → route.callback = none

theorem Treelike.isTrie (h : Treelike s) : IsTrie s.edges s.routes.length := h.valid.isTrie h.strict

theorem Treelike.sameTree (h : Treelike s) (hSame : SameTree s s') (hValid : s'.Valid) : Treelike s' where
  valid := hValid
  root := hSame.length ▸ h.root
  strict := h.strict.sameTree hSame
  external := by
    intro i route' hRoute
    obtain ⟨route, hOld, -, hCallback, -⟩ := hSame.back hRoute
    rw [hCallback]
    exact h.external hOld

theorem Treelike.withErrno (h : Treelike s) (errno : Nat) : Treelike (s.withErrno errno) :=
  h.sameTree ⟨rfl, fun hRoute => ⟨_, hRoute, rfl, rfl, rfl⟩⟩ (h.valid.withErrno errno)

/-- The root has a name, and there are not too many children. -/
def Routable (n : Stackish.Tree D) : Prop := NamedRoot n ∧ width (children n) ≤ 29

/-- The messages of a call are routable. -/
def CallRoutable : Call D → Prop
  | .register _ n _ => Routable n
  | .unregister _ n _ => Routable n
  | .unregisterAll _ => True

/-- The call finds `errno` clear, and no name on the path holds a NUL. -/
def CallClean : Call D → Prop
  | .register errno n _ => errno = 0 ∧ NulFree (pathOf n)
  | .unregister errno n _ => errno = 0 ∧ NulFree (pathOf n)
  | .unregisterAll _ => True

/-- What one call does, to the tree and to what it stands for. -/
structure Carried (place : Nat → Nat) (M : Set Nat) (s : Routing C) (A A' : Registry) (s' : Routing C) : Prop where
  treelike : Treelike s'
  le : s.routes.length ≤ s'.routes.length
  same : SameMembers s s'
  implements : Places place s' → Consistent place M s → Refines s A →
    Consistent place M s' ∧ Refines s' A'

theorem Refines.withErrno (h : Refines s A) (errno : Nat) : Refines (s.withErrno errno) A :=
  ⟨h.paths, h.holds, h.absent⟩

theorem Treelike.register_carried (hLib : lib.Sound) (hM : Orders voidPtrCompare M) (h : Treelike s)
    (hErrno : s.errno = 0) {n : Stackish.Tree D} (hn : Routable n) (hNul : NulFree (pathOf n)) {m : Nat}
    (hm : s.Live m) :
    Barring {noMemory} (s.register lib place n m) fun u =>
      Carried place M s A (A.after (.register 0 n m)) u.1 := by
  obtain ⟨⟨hNamed, hNil⟩, hWidth⟩ := hn
  obtain ⟨routes, hLookup⟩ := hm.lookup
  have hFaults : namesFaults (pathOf n) ⊆ {noMemory} := by
    rintro e (he | ⟨-, hNone⟩)
    · exact he
    · exact absurd hNone hNamed
  apply ((h.valid.register_spec hLib place h.root hNil hLookup).weaken hFaults).mono
  rintro ⟨u, b⟩ ⟨t, hRegistered⟩
  have hExtends := hRegistered.extends'
  have hStrictOf : ∀ {k}, add lib (pathOf n) 0 s = .ok (t, k) →
      Strict t ∧ t.edges = (enter s.edges s.routes.length 0 (wordPath n)).1 := by
    intro k hAdd
    rw [pathOf_eq_map hNamed] at hAdd
    have hEdges := h.valid.add_edges hLib (wordPath_ne_nil ⟨hNamed, hNil⟩) (nul_of_nulFree hNamed hNul) h.strict
      h.root hAdd
    exact ⟨hEdges.1, hEdges.2.1⟩
  have hExternal : ∀ {i : Nat} {route : Route C}, t.routes[i]? = some route → route.callback = none := by
    intro i route hRoute
    rcases Nat.lt_or_ge i s.routes.length with hLt | hGe
    · obtain ⟨old, hOld⟩ := getElem?_routes hLt
      obtain ⟨route', hNew, hSame⟩ := hExtends.old hOld
      rw [hRoute] at hNew
      cases hNew
      rw [hSame.callback]
      exact h.external hOld
    · exact (hExtends.fresh hGe hRoute).1
  obtain ⟨-, ⟨-, hLong⟩ | hSet | ⟨r, route, -, hRoute, hInternal⟩⟩ |
    ⟨-, -, r, -, hAdd, hEntered, -, hAdded⟩ := hRegistered.result
  · rw [pathLoop_of_width hErrno (by simp only [routeMaxPath]; omega)] at hLong
    cases hLong
  · exact absurd hErrno hSet
  · exact absurd (hExternal hRoute) hInternal
  · obtain ⟨hStrict, hEdges⟩ := hStrictOf hAdd
    have hT : Treelike t := ⟨hRegistered.valid, Nat.lt_of_lt_of_le h.root hExtends.le, hStrict, hExternal⟩
    have hLive : t.Live m := by
      rw [Live, hExtends.members]
      exact hm
    refine ⟨hT.sameTree hAdded.sameTree (hAdded.valid hRegistered.valid),
      hExtends.le.trans hAdded.sameTree.length.symm.le, ?_, ?_⟩
    · obtain ⟨route, routes', members', routes'', -, -, hLookup', -, -, hEq⟩ := hAdded.heaps
      dsimp only at hEq
      intro k
      rw [hEq, sameMembers_setRoutesOf (by exact hLookup'), Live, Live, ← hExtends.members]
      rfl
    · intro hPlace hConsistent hRefines
      obtain ⟨k, hk, -, hFound⟩ := hEntered.found
      cases hk
      have hWalk : walk t.edges 0 (wordPath n) = some r := by
        have hPath := hFound hNul
        rw [pathOf_eq_map hNamed, hT.valid.findPath_walk hT.root] at hPath
        exact Except.ok.inj hPath
      refine ⟨(hConsistent.extends hExtends).added hRegistered.valid hM
        (hPlace.mono hAdded.sameTree.length.symm.le) hLive hAdded, ?_⟩
      exact hRefines.register h.isTrie h.root (wordPath_ne_nil ⟨hNamed, hNil⟩) hExtends hEdges hWalk hAdded

theorem Treelike.unregister_carried (hLib : lib.Sound) (hM : Orders voidPtrCompare M) (h : Treelike s)
    (hErrno : s.errno = 0) {n : Stackish.Tree D} (hn : Routable n) {m : Nat} (hm : s.Live m) :
    Barring {noMemory} (s.unregister lib place n m) fun u =>
      Carried place M s A (A.after (.unregister 0 n m)) u.1 := by
  obtain ⟨hNamed, hWidth⟩ := hn
  obtain ⟨routes, hLookup⟩ := hm.lookup
  have hFindEq := h.valid.find_walk hErrno h.root hNamed (show _ ≤ routeMaxPath by simp only [routeMaxPath]; omega)
  apply (h.valid.unregister_spec hLib place h.root hNamed.2 hLookup).mono
  rintro ⟨u, b⟩ (⟨-, hState, t, hFind⟩ | ⟨-, r, hFind, hr, hGone⟩)
  · rw [hFindEq] at hFind
    have hNone : walk s.edges 0 (wordPath n) = none := (Prod.mk.inj (Except.ok.inj hFind)).2
    have hSame : u = s := by
      rcases hState with hState | hState
      · exact hState
      · rw [show u = s.cleared from hState, cleared, Routing.withErrno, ← hErrno]
    subst hSame
    refine ⟨h, Nat.le_refl _, fun _ => Iff.rfl, ?_⟩
    intro _ hConsistent hRefines
    exact ⟨hConsistent, hRefines.unregister_absent hNone m⟩
  · rw [hFindEq] at hFind
    have hWalk : walk s.edges 0 (wordPath n) = some r := (Prod.mk.inj (Except.ok.inj hFind)).2
    refine ⟨h.sameTree hGone.kept.tree hGone.kept.valid, hGone.kept.tree.length.symm.le, hGone.same, ?_⟩
    intro hPlace hConsistent hRefines
    obtain ⟨hOrdered, hMembers, hLinks⟩ := hGone.counts M hConsistent.ordered hM (hConsistent.live m hm)
      (hPlace.mono hGone.kept.tree.length.symm.le)
    refine ⟨⟨hOrdered, hConsistent.linked.erased hMembers hLinks,
      fun k hk => hConsistent.live k ((hGone.same k).mp hk)⟩, ?_⟩
    exact hRefines.unregister h.isTrie (wordPath_ne_nil hNamed) hWalk hGone.kept.tree.edges hMembers

theorem Treelike.unregisterAll_carried (hLib : lib.Sound) (hM : Orders voidPtrCompare M) (h : Treelike s)
    {m : Nat} (hm : s.Live m) :
    Barring {noMemory} (s.unregisterAll lib m)
      (Carried place M s A (A.after (.unregisterAll m : Call D))) := by
  obtain ⟨routes, hLookup⟩ := hm.lookup
  apply (h.valid.unregisterAll_spec hLib hLookup).mono
  intro u hGone
  refine ⟨h.sameTree hGone.kept.tree hGone.kept.valid, hGone.kept.tree.length.symm.le, hGone.same, ?_⟩
  intro _ hConsistent hRefines
  refine ⟨hConsistent.unregisteredAll hM hm hGone, ?_⟩
  exact hRefines.unregisterAll hGone.kept.tree.edges
    (hConsistent.linked.membersOf_unregisteredAll hGone hConsistent.ordered hM (hConsistent.live m hm))

theorem Carried.of_withErrno {A' : Registry} {errno : Nat} (h : Carried place M (s.withErrno errno) A A' s') :
    Carried place M s A A' s' where
  treelike := h.treelike
  le := h.le
  same := h.same
  implements := fun hPlace hConsistent hRefines =>
    h.implements hPlace (hConsistent.withErrno errno) (hRefines.withErrno errno)

theorem Treelike.call_carried (hLib : lib.Sound) (hM : Orders voidPtrCompare M) (h : Treelike s) {c : Call D}
    (hRoutable : CallRoutable c) (hClean : CallClean c) (hLive : s.Live c.member) :
    Barring {noMemory} (s.call lib place c) (Carried place M s A (A.after c)) := by
  cases c with
  | register errno n m =>
    obtain ⟨rfl, hNul⟩ := hClean
    apply ((h.withErrno 0).register_carried (A := A) hLib hM rfl hRoutable hNul hLive).bind
    intro u hCarried
    exact .pure hCarried.of_withErrno
  | unregister errno n m =>
    obtain ⟨rfl, -⟩ := hClean
    apply ((h.withErrno 0).unregister_carried (A := A) hLib hM rfl hRoutable hLive).bind
    intro u hCarried
    exact .pure hCarried.of_withErrno
  | unregisterAll m => exact h.unregisterAll_carried hLib hM hLive

theorem Treelike.calls_carried (hLib : lib.Sound) (hM : Orders voidPtrCompare M) {calls : List (Call D)}
    (h : Treelike s) (hCalls : ∀ c ∈ calls, CallRoutable c ∧ CallClean c ∧ s.Live c.member) :
    Barring {noMemory} (calls.foldlM (call lib place) s)
      (Carried place M s A (calls.foldl Registry.after A)) := by
  induction calls generalizing s A with
  | nil => exact .pure ⟨h, Nat.le_refl _, fun _ => Iff.rfl, fun _ hConsistent hRefines => ⟨hConsistent, hRefines⟩⟩
  | cons c calls ih =>
    obtain ⟨⟨hRoutable, hClean, hLive⟩, hRest⟩ := List.forall_mem_cons.mp hCalls
    rw [List.foldlM_cons]
    apply (h.call_carried (A := A) hLib hM hRoutable hClean hLive).bind
    intro t hT
    apply (ih (A := A.after c) hT.treelike fun d hd => ?_).mono
    · intro u hU
      refine ⟨hU.treelike, hT.le.trans hU.le, fun m => (hU.same m).trans (hT.same m), ?_⟩
      intro hPlace hConsistent hRefines
      obtain ⟨hConsistentT, hRefinesT⟩ := hT.implements (hPlace.mono hU.le) hConsistent hRefines
      exact hU.implements hPlace hConsistentT hRefinesT
    · obtain ⟨hRoutable', hClean', hLive'⟩ := hRest d hd
      exact ⟨hRoutable', hClean', (hT.same d.member).mpr hLive'⟩

/-! ## From the root -/

/-- Some members come. -/
def logins (s : Routing C) (ms : List Nat) : Routing C := ms.foldl login s

theorem sameTree_logins (s : Routing C) (ms : List Nat) : SameTree s (s.logins ms) := by
  induction ms generalizing s with
  | nil => exact .refl s
  | cons m ms ih => exact (sameTree_setRoutesOf s m .create).trans (ih (s.login m))

theorem Valid.logins (hValid : s.Valid) (ms : List Nat) : (s.logins ms).Valid := by
  induction ms generalizing s with
  | nil => exact hValid
  | cons m ms ih => exact ih (hValid.login m)

theorem membersOf_logins (s : Routing C) (ms : List Nat) (r : Nat) : (s.logins ms).membersOf r = s.membersOf r := by
  induction ms generalizing s with
  | nil => rfl
  | cons m ms ih => exact ih (s.login m)

/-- All members have a heap without routes, and they are the ones that came. -/
theorem lookup_logins {ms : List Nat} {m : Nat} {routes : Heap Nat}
    (h : (s.logins ms).members.lookup m = some routes) :
    (m ∈ ms ∧ routes = .create) ∨ s.members.lookup m = some routes := by
  induction ms generalizing s with
  | nil => exact .inr h
  | cons k ms ih =>
    rcases ih h with ⟨hm, hCreate⟩ | hOld
    · exact .inl ⟨List.mem_cons_of_mem k hm, hCreate⟩
    · by_cases hSame : m = k
      · subst hSame
        rw [Routing.login, lookup_setRoutesOf_self] at hOld
        cases hOld
        exact .inl ⟨List.mem_cons_self, rfl⟩
      · rw [Routing.login, lookup_setRoutesOf_ne hSame] at hOld
        exact .inr hOld

theorem live_logins {ms : List Nat} {m : Nat} (hm : m ∈ ms ∨ s.Live m) : (s.logins ms).Live m := by
  induction ms generalizing s with
  | nil => exact hm.resolve_left List.not_mem_nil
  | cons k ms ih =>
    apply ih
    by_cases hSame : m = k
    · subst hSame
      right
      rw [Live, Routing.login, lookup_setRoutesOf_self]
      rfl
    · rw [Live, Routing.login, lookup_setRoutesOf_ne hSame]
      rcases hm with hm | hm
      · exact .inl ((List.mem_cons.mp hm).resolve_left hSame)
      · exact .inr hm

theorem start_treelike {name : Option Bytes} (h : createRoot name = .ok s) (ms : List Nat) :
    Treelike (s.logins ms) ∧ ∀ i l, (s.logins ms).edges i l = none := by
  obtain ⟨hValid, hLength, -⟩ := createRoot_valid h
  have hNone : ∀ {i c : Nat} {route : Route C}, s.routes[i]? = some route → c ∉ route.children.members := by
    intro i c route hRoute hc
    rw [(createRoot_route h hRoute).2.2] at hc
    cases hc
  have hStrict : Strict s := by
    refine ⟨?_, ?_, ?_⟩
    · intro i route hRoute c hc
      exact absurd hc (hNone hRoute)
    · intro i route hRoute
      rw [(createRoot_route h hRoute).2.2]
      exact List.nodup_nil
    · intro i i' c route route' hRoute hRoute' hc
      exact absurd hc (hNone hRoute)
  have hTree : Treelike s := ⟨hValid, hLength ▸ Nat.one_pos, hStrict, fun hRoute => (createRoot_route h hRoute).1⟩
  refine ⟨hTree.sameTree (sameTree_logins s ms) (hValid.logins ms), ?_⟩
  intro i l
  rw [(sameTree_logins s ms).edges]
  cases hEdge : s.edges i l with
  | none => rfl
  | some c =>
    obtain ⟨route, hRoute, hc, -⟩ := (hValid.edges_iff hStrict).mp hEdge
    exact absurd hc (hNone hRoute)

theorem start_implements (place : Nat → Nat) {name : Option Bytes} (h : createRoot name = .ok s) (ms : List Nat) :
    Consistent place {m | m ∈ ms} (s.logins ms) ∧ Refines (s.logins ms) .empty := by
  obtain ⟨-, -, hMembers, -⟩ := createRoot_valid h
  have hLookup : ∀ {m : Nat} {routes : Heap Nat}, (s.logins ms).members.lookup m = some routes →
      m ∈ ms ∧ routes = .create := by
    intro m routes hm
    rcases lookup_logins hm with hNew | hOld
    · exact hNew
    · rw [hMembers, AList.lookup_empty] at hOld
      cases hOld
  have hRoute : ∀ {r : Nat} {route : Route C}, (s.logins ms).routes[r]? = some route →
      route.members.members = [] := by
    intro r route hRoute
    have hZero : (s.logins ms).membersOf r = s.membersOf r := membersOf_logins s ms r
    obtain ⟨old, hOld, -⟩ := (sameTree_logins s ms).back hRoute
    rw [membersOf_eq hRoute, membersOf_eq hOld, (createRoot_route h hOld).2.1] at hZero
    exact Multiset.coe_eq_zero _ |>.mp hZero
  have hZero : ∀ r, (s.logins ms).membersOf r = 0 := by
    intro r
    cases hr : (s.logins ms).routes[r]? with
    | none =>
      rw [membersOf, hr]
      rfl
    | some route =>
      rw [membersOf_eq hr, hRoute hr]
      rfl
  have hLinks : ∀ m, (s.logins ms).linksOf m = 0 := by
    intro m
    cases hm : (s.logins ms).members.lookup m with
    | none =>
      rw [linksOf, hm]
      rfl
    | some routes =>
      rw [linksOf_eq hm, (hLookup hm).2]
      rfl
  refine ⟨⟨⟨?_, ?_⟩, ?_, ?_⟩, ?_, ?_, fun q _ => rfl⟩
  · intro r route hr
    rw [hRoute hr]
    exact ⟨by simp, List.Pairwise.nil⟩
  · intro m routes hm
    rw [(hLookup hm).2]
    exact List.Pairwise.nil
  · intro r m
    rw [hZero, hLinks, Multiset.count_zero, Multiset.count_zero]
  · intro m hm
    obtain ⟨routes, hm⟩ := hm.lookup
    exact (hLookup hm).1
  · intro q hq
    obtain ⟨l, q, rfl⟩ := List.exists_cons_of_ne_nil hq
    rw [walk_cons, (start_treelike h ms).2]
    simp [Registry.empty]
  · intro q r _ _
    exact hZero r

/-- The members that a lookup of the message comes to -/
def heldAt (s : Routing C) (n : Stackish.Tree D) : Multiset Nat :=
  match (s.withErrno 0).find n with
  | .ok (_, some r) => s.membersOf r
  | _ => 0

theorem Refines.find (h : Refines s A) (hTree : Treelike s) {n : Stackish.Tree D} (hn : Routable n) :
    ∃ k, (s.withErrno 0).find n = .ok (s.withErrno 0, k) ∧
      (k = none ↔ ¬∃ p ∈ A.paths, wordPath n <+: p) ∧
      (∀ r, k = some r → s.membersOf r = A.holds (wordPath n)) ∧ heldAt s n = A.holds (wordPath n) := by
  have hFind := (hTree.withErrno 0).valid.find_walk rfl hTree.root hn.1
    (show _ ≤ routeMaxPath by simp only [routeMaxPath]; have := hn.2; omega)
  have hPath := h.paths (wordPath n) (wordPath_ne_nil hn.1)
  refine ⟨_, hFind, ?_, fun r hr => h.holds _ r (wordPath_ne_nil hn.1) hr, ?_⟩
  · rw [← hPath]
    change walk s.edges 0 (wordPath n) = none ↔ _
    cases walk s.edges 0 (wordPath n) with
    | none => simp
    | some r => simp
  · rw [heldAt, hFind]
    cases hWalk : walk (s.withErrno 0).edges 0 (wordPath n) with
    | none => exact (h.absent _ hWalk).symm
    | some r => exact h.holds _ r (wordPath_ne_nil hn.1) hWalk

/-- The path that a call is about, if it is one -/
def callPath : Call D → Option (List Bytes)
  | .register _ n _ => some (wordPath n)
  | .unregister _ n _ => some (wordPath n)
  | .unregisterAll _ => none

theorem Registry.after_other {c : Call D} {p q : List Bytes} (hc : callPath c = some p) (hq : q ≠ p) :
    (A.after c).holds q = A.holds q := by
  cases c with
  | register errno n m =>
    cases hc
    exact Function.update_of_ne hq _ _
  | unregister errno n m =>
    cases hc
    exact Function.update_of_ne hq _ _
  | unregisterAll m => cases hc

/-- In a run of calls that find `errno` clear, on names without a NUL, the tree is the map: a lookup
finds nothing exactly if no path ever registered begins with the path of the message, and otherwise the
members registered and not unregistered; a call on one path leaves the others alone; and the children
of every route are sorted without duplicates. -/
theorem routing_implements_map (hLib : lib.Sound) (place : Nat → Nat) {name : Option Bytes} {root : Routing C}
    (hRoot : createRoot name = .ok root) {ms : List Nat} (hM : Orders voidPtrCompare {m | m ∈ ms})
    {calls : List (Call D)} (hCalls : ∀ c ∈ calls, CallRoutable c ∧ c.member ∈ ms)
    (hClean : ∀ c ∈ calls, CallClean c) :
    Barring {noMemory} (calls.foldlM (call lib place) (root.logins ms)) fun s => Places place s →
      (∀ n : Stackish.Tree D, Routable n →
        ∃ k, (s.withErrno 0).find n = .ok (s.withErrno 0, k) ∧
          (k = none ↔ ¬∃ p ∈ (calls.foldl Registry.after .empty).paths, wordPath n <+: p) ∧
          ∀ r, k = some r → s.membersOf r = (calls.foldl Registry.after .empty).holds (wordPath n)) ∧
      (∀ (c : Call D) (p : List Bytes) (n : Stackish.Tree D) (s' : Routing C), CallRoutable c → CallClean c →
        c.member ∈ ms → callPath c = some p → Routable n → wordPath n ≠ p →
        s.call lib place c = .ok s' → Places place s' → heldAt s' n = heldAt s n) ∧
      ∀ (i : Nat) (route : Route C), s.routes[i]? = some route →
        route.children.members.Pairwise fun x y => s.childrenCompare x y < 0 := by
  obtain ⟨hConsistent, hRefines⟩ := start_implements place hRoot ms
  have hLive : ∀ c ∈ calls, CallRoutable c ∧ CallClean c ∧ (root.logins ms).Live c.member := by
    intro c hc
    exact ⟨(hCalls c hc).1, hClean c hc, live_logins (.inl (hCalls c hc).2)⟩
  apply ((start_treelike hRoot ms).1.calls_carried hLib hM hLive).mono
  intro s hCarried hPlace
  obtain ⟨hConsistentS, hRefinesS⟩ := hCarried.implements hPlace hConsistent hRefines
  refine ⟨?_, ?_, fun i route hRoute => hCarried.treelike.strict.sorted hCarried.treelike.valid hRoute⟩
  · intro n hn
    obtain ⟨k, hFind, hNone, hSome, -⟩ := hRefinesS.find hCarried.treelike hn
    exact ⟨k, hFind, hNone, hSome⟩
  · intro c p n s' hRoutable hClean' hMember hPath hn hOther hCall hPlace'
    have hLiveC : s.Live c.member := (hCarried.same _).mpr (live_logins (.inl hMember))
    have hNext := (hCarried.treelike.call_carried (A := calls.foldl Registry.after .empty) hLib hM hRoutable
      hClean' hLiveC).of_ok hCall
    obtain ⟨-, hRefines'⟩ := hNext.implements hPlace' hConsistentS hRefinesS
    obtain ⟨-, -, -, -, hHeld⟩ := hRefinesS.find hCarried.treelike hn
    obtain ⟨-, -, -, -, hHeld'⟩ := hRefines'.find hNext.treelike hn
    rw [hHeld, hHeld', Registry.after_other hPath hOther]

end Refinement

/-! ## A few calls -/

/-- `[ [ b a `: the path `a`, `b`. -/
def nested : Stackish.Tree Unit :=
  .node ⟨some [97], .group⟩ (.node ⟨some [98], .group⟩ .nil .nil) .nil

def nestedCalls : List (Call Unit) :=
  [.register 0 nested 1, .register 0 (groupOf 0) 1, .register 0 nested 1, .unregister 0 nested 1]

theorem routing_map_nested :
    ∃ s, nestedCalls.foldlM (call plainLib id) (rootOnly.logins [1]) = .ok s ∧
      (∃ r, (s.withErrno 0).find nested = .ok (s.withErrno 0, some r) ∧ s.membersOf r = {1}) := by
  have hM : Orders voidPtrCompare {m | m ∈ [1]} := by
    apply voidPtrCompare_orders 0
    intro x hx
    obtain rfl := List.mem_singleton.mp hx
    decide
  have hNested : Routable nested := ⟨⟨by decide, by simp [nested]⟩, by decide⟩
  have hSingle : Routable (groupOf 0) := ⟨⟨by decide, by simp [groupOf]⟩, by decide⟩
  have hNul : NulFree (pathOf nested) ∧ NulFree (pathOf (groupOf 0)) := by
    constructor
    · intro a ha
      rcases List.mem_cons.mp ha with ha | ha
      · cases ha
        decide
      · cases List.mem_singleton.mp ha
        decide
    · intro a ha
      cases List.mem_singleton.mp ha
      decide
  have hCalls : ∀ c ∈ nestedCalls, CallRoutable c ∧ c.member ∈ [1] := by
    simp [nestedCalls, CallRoutable, Call.member, hNested, hSingle]
  have hClean : ∀ c ∈ nestedCalls, CallClean c := by
    simp [nestedCalls, CallClean, hNul.1, hNul.2]
  have hMap := routing_implements_map plainLib_sound id createRoot_rootOnly hM hCalls hClean
  rcases hMap with ⟨e, -, hError⟩ | ⟨s, hRun, hMap⟩
  · cases hError
  · refine ⟨s, hRun, ?_⟩
    have hPlace : Places id s := by
      have hLength : s.routes.length = 3 := by
        cases hRun
        rfl
      apply voidPtrCompare_orders 0
      intro r hr
      have hLt : r < s.routes.length := hr
      omega
    obtain ⟨k, hFind, hNone, hSome⟩ := (hMap hPlace).1 nested hNested
    cases k with
    | none =>
      refine absurd ?_ (hNone.mp rfl)
      exact ⟨wordPath nested, by decide, List.prefix_refl _⟩
    | some r => exact ⟨r, hFind, (hSome r rfl).trans (by decide)⟩

/-- A group whose name holds a NUL. -/
def nulGroup : Stackish.Tree Unit := .node ⟨some [97, 0, 98], .group⟩ .nil .nil

/-- Registered under a name with a NUL, the member cannot be found, and registering it again makes a
second child of the same name. A call that finds `errno` set leaves a path behind that was not
registered. -/
theorem routing_map_broken :
    Routable nulGroup ∧ Routable (groupOf 0) ∧
      (∃ s t, single.register plainLib id nulGroup 1 = .ok (s, true) ∧
        s.find nulGroup = .ok (s, none) ∧
        s.register plainLib id nulGroup 1 = .ok (t, true) ∧
        t.routes.map (fun route => route.children.members.map t.name) = [[some [97], some [97]], [], []]) ∧
      ∃ s, (single.withErrno 2).register plainLib id (groupOf 0) 1 = .ok (s, false) ∧
        s.find (groupOf 0) = .ok (s, some 1) := by
  refine ⟨⟨⟨by decide, by simp [nulGroup]⟩, by decide⟩, ⟨⟨by decide, by simp [groupOf]⟩, by decide⟩, ?_, ?_⟩
  · exact ⟨_, _, rfl, rfl, rfl, rfl⟩
  · exact ⟨_, rfl, rfl⟩

end Utu.Hub.Routing
