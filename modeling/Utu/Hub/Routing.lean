import Utu.Hub.Heap
import Utu.Stackish.Node

/-!
# The routing tree

Routes are known by the order of their allocation, the root being the first,
and members by their addresses. A route holds its members, and a member the
routes it is registered for; each is a heap of pointers. Where a route lies in
memory matters only to the comparator of the second kind of heap.
-/

namespace Utu.Hub
open Outcome LinkedForest
set_option autoImplicit false

def routeMaxPath : Nat := 30

/-- `Route`; an internal one has a callback. -/
structure Route (C : Type) where
  name : Bytes
  callback : Option C
  members : Heap Nat
  children : Heap Nat
deriving DecidableEq, Repr

/-- The routes, the field `routes` of every member, and `errno`. -/
structure Routing (C : Type) where
  routes : List (Route C)
  members : AList fun _ : Nat => Heap Nat
  errno : Nat

/-- A group with a name that is no attribute is a step of a path. -/
def isStep {D : Type} (n : Stackish.NodeData D) : Bool :=
  n.value matches .group && n.name.any fun name => bchar name 0 ≠ 64

namespace Routing

variable {C D : Type} (lib : HeapLib) (place : Nat → Nat)

def name (s : Routing C) (r : Nat) : Option Bytes := s.routes[r]?.map Route.name

/-- `Route_children_compare` -/
def childrenCompare (s : Routing C) (x y : Nat) : Int := bstrcmp (s.name x) (s.name y)

/-- The comparator of a member's `routes` -/
def routeCompare (x y : Nat) : Int := voidPtrCompare (place x) (place y)

/-- A route is read. -/
def route (s : Routing C) (r : Nat) : Run (Route C) :=
  match s.routes[r]? with
  | some route => pure route
  | none => throw .badPointer

/-- The routes of a member are read. -/
def routesOf (s : Routing C) (m : Nat) : Run (Heap Nat) :=
  match s.members.lookup m with
  | some routes => pure routes
  | none => throw .useAfterFree

def setRoute (s : Routing C) (r : Nat) (route : Route C) : Routing C :=
  { s with routes := s.routes.set r route }

def setRoutesOf (s : Routing C) (m : Nat) (routes : Heap Nat) : Routing C :=
  { s with members := s.members.insert m routes }

/-- `check` fails on a false condition or on `errno`, which it then clears. -/
def passes (s : Routing C) (condition : Bool) : Bool := condition && s.errno == 0

def withErrno (s : Routing C) (errno : Nat) : Routing C := { s with errno := errno }

def cleared (s : Routing C) : Routing C := s.withErrno 0

/-- `Route_find_child`, for an element of this name -/
def findChild (s : Routing C) (parent : Nat) (name : Option Bytes) : Run (Option Nat) := do
  let route ← s.route parent
  let i ← route.children.find fun x => bstrcmp (s.name x) name
  pure (if route.children.valid i then route.children.members[i]? else none)

/-- `Route_alloc` without a parent; the name ends at its first NUL, and there has to be one. -/
def allocRoot (s : Routing C) (name : Option Bytes) : Run (Routing C) :=
  match bfromcstr name with
  | none => throw (.assertFailed "r->name != NULL && \"memory alloc failure\"")
  | some name => pure { s with routes := s.routes ++ [⟨name, none, .create, .create⟩] }

/-- `Route_alloc` -/
def alloc (s : Routing C) (parent : Nat) (name : Option Bytes) : Run (Routing C × Nat) := do
  let r := s.routes.length
  let s ← s.allocRoot name
  let route ← s.route parent
  let children ← route.children.add lib s.childrenCompare r
  pure (s.setRoute parent { route with children := children }, r)

/-- `Route_add`, for elements of these names -/
def add : List (Option Bytes) → Nat → Routing C → Run (Routing C × Option Nat)
  | [], _, s => pure (s, none)
  | name :: rest, parent, s => do
    let (s, r) ← (do
      match ← s.findChild parent name with
      | some r => pure (s, r)
      | none => s.alloc lib parent name)
    if rest.isEmpty then pure (s, some r) else add rest r s

/-- `Route_add_member` -/
def addMember (s : Routing C) (r m : Nat) : Run (Routing C × Bool) := do
  let route ← s.route r
  if route.callback.isSome then pure (s, false)
  else
    let members ← route.members.add lib voidPtrCompare m
    let routes ← s.routesOf m
    let routes ← routes.add lib (routeCompare place) r
    pure ((s.setRoute r { route with members := members }).setRoutesOf m routes, true)

/-- The loop of `Route_extend_and_find`: the rest of the path, unless it is too long -/
def pathLoop (s : Routing C) : Nat → Stackish.Tree D → Option (List (Option Bytes))
  | _, .nil => some []
  | i, .node n _ sibling =>
    if s.passes (i < routeMaxPath) then
      if isStep n then (pathLoop s (i + 1) sibling).map (n.name :: ·) else pathLoop s i sibling
    else none

/-- `Route_extend_and_find` -/
def extendAndFind (s : Routing C) : Stackish.Tree D → Run (Routing C × Option Nat)
  | .nil => throw (.assertFailed "according_to cannot be NULL")
  | .node n child _ =>
    match s.pathLoop 1 child with
    | none => pure (s.cleared, none)
    | some rest => add lib (n.name :: rest) 0 s

/-- `Route_register` -/
def register (s : Routing C) (n : Stackish.Tree D) (m : Nat) : Run (Routing C × Bool) := do
  let (s, point) ← s.extendAndFind lib n
  match point with
  | none => pure (s.cleared, false)
  | some r =>
    if s.passes true then
      let (s, added) ← s.addMember lib place r m
      if s.passes added then pure (s, true) else pure (s.cleared, false)
    else pure (s.cleared, false)

/-- `Route_register_callback` -/
def registerCallback (s : Routing C) (n : Stackish.Tree D) (callback : C) : Run (Routing C × Bool) := do
  let (s, point) ← s.extendAndFind lib n
  match point with
  | none => pure (s.cleared, false)
  | some r =>
    if s.passes true then
      let route ← s.route r
      pure (s.setRoute r { route with callback := some callback }, true)
    else pure (s.cleared, false)

/-- The loop of `Route_find` -/
def findLoop (s : Routing C) : Nat → Nat → Stackish.Tree D → Run (Routing C × Option Nat)
  | _, r, .nil => pure (s, some r)
  | i, r, .node n _ sibling =>
    if s.passes (i < routeMaxPath) then
      if isStep n then do
        match ← s.findChild r n.name with
        | some r => findLoop s (i + 1) r sibling
        | none => pure (s, none)
      else findLoop s (i + 1) r sibling
    else pure (s.cleared, none)

/-- `Route_find` from the root -/
def find (s : Routing C) : Stackish.Tree D → Run (Routing C × Option Nat)
  | .nil => pure (s, none)
  | .node n child _ => do
    match ← s.findChild 0 n.name with
    | some r => s.findLoop 0 r child
    | none => pure (s, none)

/-- `Heap_delete(r->members, member)` -/
def deleteMember (m : Nat) (s : Routing C) (r : Nat) : Run (Routing C) := do
  let route ← s.route r
  let (members, _) ← route.members.delete lib (voidPtrCompare · m)
  pure (s.setRoute r { route with members := members })

/-- `Heap_delete(member->routes, r)` -/
def deleteRoute (m : Nat) (s : Routing C) (r : Nat) : Run (Routing C) := do
  let routes ← s.routesOf m
  let (routes, _) ← routes.delete lib (routeCompare place · r)
  pure (s.setRoutesOf m routes)

/-- `Route_unregister` -/
def unregister (s : Routing C) (n : Stackish.Tree D) (m : Nat) : Run (Routing C × Bool) :=
  match n with
  | .nil => throw (.assertFailed "according_to cannot be NULL")
  | n => do
    let (s, r) ← s.find n
    match r with
    | none => pure (s, false)
    | some r =>
      let s ← deleteMember lib m s r
      let s ← deleteRoute lib place m s r
      pure (s, true)

/-- `Route_unregister_all` -/
def unregisterAll (s : Routing C) (m : Nat) : Run (Routing C) := do
  let routes ← s.routesOf m
  let s ← routes.members.foldlM (deleteMember lib m) s
  pure (s.setRoutesOf m routes.clear)

/-- `Route_create_root`, before any member comes -/
def createRoot (name : Option Bytes) : Run (Routing C) := allocRoot ⟨[], ∅, 0⟩ name

/-- `Member_create` -/
def login (s : Routing C) (m : Nat) : Routing C := s.setRoutesOf m .create

/-- A member is freed. -/
def forget (s : Routing C) (m : Nat) : Routing C := { s with members := s.members.erase m }

end Routing

/-! ## Runs -/

/-- A call of a routing function, with the `errno` that it finds -/
inductive Call (D : Type) where
  | register (errno : Nat) (n : Stackish.Tree D) (m : Nat)
  | unregister (errno : Nat) (n : Stackish.Tree D) (m : Nat)
  | unregisterAll (m : Nat)
deriving DecidableEq, Repr

def Call.member {D : Type} : Call D → Nat
  | .register _ _ m => m
  | .unregister _ _ m => m
  | .unregisterAll m => m

/-- What happens to the tree: a member comes, a service is put in, a member calls, a member goes. -/
inductive RouteAct (C D : Type) where
  | login (m : Nat)
  | service (errno : Nat) (n : Stackish.Tree D) (callback : C)
  | call (c : Call D)
  | close (m : Nat)

namespace Routing

variable {C D : Type} (lib : HeapLib) (place : Nat → Nat)

def call (s : Routing C) : Call D → Run (Routing C)
  | .register errno n m => do
    let (s, _) ← (s.withErrno errno).register lib place n m
    pure s
  | .unregister errno n m => do
    let (s, _) ← (s.withErrno errno).unregister lib place n m
    pure s
  | .unregisterAll m => s.unregisterAll lib m

/-- `ConnectionState_half_close` unregisters the member before it frees it. -/
def step (s : Routing C) : RouteAct C D → Run (Routing C)
  | .login m => pure (s.login m)
  | .service errno n callback => do
    let (s, _) ← (s.withErrno errno).registerCallback lib n callback
    pure s
  | .call c => s.call lib place c
  | .close m => do
    let s ← s.unregisterAll lib m
    pure (s.forget m)

/-- The member is logged in. -/
def Live (s : Routing C) (m : Nat) : Prop := (s.members.lookup m).isSome = true

instance (s : Routing C) (m : Nat) : Decidable (s.Live m) := inferInstanceAs (Decidable (_ = true))

/-- A new member gets an address that no other has, in `M`, and only members call. -/
def Ready (M : Set Nat) (s : Routing C) : RouteAct C D → Prop
  | .login m => m ∈ M ∧ ¬s.Live m
  | .service _ _ _ => True
  | .call c => s.Live c.member
  | .close m => s.Live m

/-- The trees that some run leads to, with the members at addresses in `M`. -/
inductive Reachable (D : Type) (M : Set Nat) : Routing C → Prop
  | root {name : Option Bytes} {s : Routing C} : createRoot name = .ok s → Reachable D M s
  | step {s s' : Routing C} {act : RouteAct C D} : Reachable D M s → s.Ready M act →
      s.step lib place act = .ok s' → Reachable D M s'

end Routing

end Utu.Hub
