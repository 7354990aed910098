import Utu.Hub.Commands
import Utu.Hub.RouteMap
import Utu.Stackish.Canonical

/-!
# The services stay

A message does nothing to the routes but one call of `Route_register` or
`Route_unregister`, with `errno` clear. Names from the wire hold no NUL, so the
tree stays a trie in which an edge, once there, leads to the same route; and a
route with a callback takes no members.
-/

namespace Utu.Hub.Routing
open Comparator Outcome LinkedForest Trie
set_option autoImplicit false

variable {D : Type} {lib : HeapLib} {place : Nat → Nat} {out : Outside D} {s s' : Routing Callback}

/-! ## What a message does to the routes -/

theorem Valid.find_errno (hValid : s.Valid) (hRoot : 0 < s.routes.length) {n : Stackish.Tree D}
    {u : Routing Callback} {k : Option Nat} (h : s.find n = .ok (u, k)) : ∃ errno, u = s.withErrno errno := by
  obtain ⟨u', k', hFind, hSame, -⟩ := hValid.find_ok hRoot n
  rw [hFind] at h
  cases h
  rcases hSame with rfl | rfl
  · exact ⟨u.errno, rfl⟩
  · exact ⟨0, rfl⟩

theorem Valid.routeMembers_errno (hValid : s.Valid) (hRoot : 0 < s.routes.length) {n : Stackish.Tree D}
    {svc : Service D} (h : s.routeMembers out n = .ok (s', svc)) : ∃ errno, s' = s.withErrno errno := by
  obtain ⟨⟨u, target⟩, hFind, h⟩ := bind_eq_ok_iff.mp h
  obtain ⟨path, -, h⟩ := bind_eq_ok_iff.mp h
  obtain ⟨strings, -, h⟩ := bind_eq_ok_iff.mp h
  obtain ⟨_, -, h⟩ := bind_eq_ok_iff.mp h
  obtain ⟨reply, -, h⟩ := bind_eq_ok_iff.mp h
  cases h
  exact hValid.find_errno hRoot hFind

theorem Valid.routeChildren_errno (hValid : s.Valid) (hRoot : 0 < s.routes.length) {n : Stackish.Tree D}
    {svc : Service D} (h : s.routeChildren out n = .ok (s', svc)) : ∃ errno, s' = s.withErrno errno := by
  obtain ⟨⟨u, target⟩, hFind, h⟩ := bind_eq_ok_iff.mp h
  obtain ⟨path, -, h⟩ := bind_eq_ok_iff.mp h
  obtain ⟨strings, -, h⟩ := bind_eq_ok_iff.mp h
  obtain ⟨_, -, h⟩ := bind_eq_ok_iff.mp h
  obtain ⟨reply, -, h⟩ := bind_eq_ok_iff.mp h
  cases h
  exact hValid.find_errno hRoot hFind

theorem memberReply_errno {word : Bytes} {dumps : Bool} {n : Stackish.Tree D} {svc : Service D}
    (h : s.memberReply out word dumps n = .ok (s', svc)) : ∃ errno, s' = s.withErrno errno := by
  rw [memberReply] at h
  obtain ⟨_, -, h⟩ := bind_eq_ok_iff.mp h
  obtain ⟨reply, -, h⟩ := bind_eq_ok_iff.mp h
  cases h
  exact ⟨s.errno, rfl⟩

theorem systemPing_errno {n : Stackish.Tree D} {svc : Service D} (h : s.systemPing out n = .ok (s', svc)) :
    ∃ errno, s' = s.withErrno errno := by
  unfold systemPing at h
  split at h
  · split at h
    · obtain ⟨reply, -, h⟩ := bind_eq_ok_iff.mp h
      cases h
      exact ⟨s.errno, rfl⟩
    · cases h
      exact ⟨0, rfl⟩
  · cases h
    exact ⟨0, rfl⟩

theorem infoGeneric_errno {operation : Bytes} {op : Bytes → Run Info} {n : Stackish.Tree D} {svc : Service D}
    (h : s.infoGeneric out operation op n = .ok (s', svc)) : ∃ errno, s' = s.withErrno errno := by
  have hReply : ∀ name, s.infoReply operation op name = .ok (s', svc) → ∃ errno, s' = s.withErrno errno := by
    intro name h
    obtain ⟨info, -, h⟩ := bind_eq_ok_iff.mp h
    obtain ⟨⟨response, type⟩, -, h⟩ := bind_eq_ok_iff.mp h
    obtain ⟨reply, -, h⟩ := bind_eq_ok_iff.mp h
    cases h
    exact ⟨s.errno, rfl⟩
  unfold infoGeneric at h
  split at h
  · obtain ⟨name, -, h⟩ := bind_eq_ok_iff.mp h
    split at h
    · split at h
      · exact hReply _ h
      · cases h
        exact ⟨0, rfl⟩
    · cases h
      exact ⟨0, rfl⟩
  · cases h
    exact ⟨0, rfl⟩

/-- A callback registers or unregisters the sender, or leaves the routes as they are. -/
theorem Valid.callback_cases (hValid : s.Valid) (hRoot : 0 < s.routes.length) {sender : Nat}
    {n : Stackish.Tree D} {cb : Callback} {svc : Service D}
    (h : s.callback lib place out sender n cb = .ok (s', svc)) :
    (∃ errno, s' = s.withErrno errno) ∨ (∃ b, s.register lib place n sender = .ok (s', b)) ∨
      ∃ b, s.unregister lib place n sender = .ok (s', b) := by
  cases cb with
  | routeRegister =>
    obtain ⟨⟨t, b⟩, hCall, h⟩ := bind_eq_ok_iff.mp h
    cases h
    exact .inr (.inl ⟨b, hCall⟩)
  | routeUnregister =>
    obtain ⟨⟨t, b⟩, hCall, h⟩ := bind_eq_ok_iff.mp h
    cases h
    exact .inr (.inr ⟨b, hCall⟩)
  | routeMembers => exact .inl (hValid.routeMembers_errno hRoot h)
  | routeChildren => exact .inl (hValid.routeChildren_errno hRoot h)
  | memberRegister | memberMendicate | memberInvite | memberSend =>
    rw [callback] at h
    exact .inl (memberReply_errno h)
  | infoGet | infoList | infoTag =>
    rw [callback] at h
    exact .inl (infoGeneric_errno h)
  | systemPing => exact .inl (systemPing_errno h)

/-- The calls that a message can lead to: its first grandchild is registered or unregistered. -/
def requestOf (sender : Nat) (body : Stackish.Tree D) (c : Call D) : Prop :=
  c = .register 0 (extractMessage (children body)) sender ∨
    c = .unregister 0 (extractMessage (children body)) sender

/-- `Hub_service_message` is one call on the routes, or none, up to `errno`. -/
theorem Valid.serviceMessage_simulated (hValid : s.Valid) (hRoot : 0 < s.routes.length) {sender : Nat}
    {body : Stackish.Tree D} {svc : Service D} (h : s.serviceMessage lib place out sender body = .ok (s', svc)) :
    (∃ errno, s' = s.withErrno errno) ∨
      ∃ c, requestOf sender body c ∧ ∃ t, s.call lib place c = .ok t ∧ ∃ errno, s' = t.withErrno errno := by
  obtain ⟨⟨u, target⟩, hFind, h⟩ := bind_eq_ok_iff.mp h
  obtain ⟨errno, rfl⟩ := (hValid.withErrno out.errno).find_errno hRoot hFind
  dsimp only at h
  split at h
  · cases h
    exact .inl ⟨0, rfl⟩
  split at h
  swap
  · cases h
    exact .inl ⟨0, rfl⟩
  rename_i r hPasses
  obtain rfl : errno = 0 := by
    rw [passes, Bool.true_and] at hPasses
    exact beq_iff_eq.mp hPasses
  obtain ⟨route, -, h⟩ := bind_eq_ok_iff.mp h
  split at h
  swap
  · obtain ⟨deliveries, -, h⟩ := bind_eq_ok_iff.mp h
    cases h
    exact .inl ⟨0, rfl⟩
  unfold serviceInternal at h
  split at h
  · cases h
    exact .inl ⟨0, rfl⟩
  obtain ⟨⟨t, reply⟩, hCall, h⟩ := bind_eq_ok_iff.mp h
  have hErrno : ∃ errno, s' = t.withErrno errno := by
    dsimp only at h
    split at h
    · cases h
      exact ⟨s'.errno, rfl⟩
    · cases h
      exact ⟨0, rfl⟩
  rcases Valid.callback_cases (hValid.withErrno 0) hRoot hCall with ⟨errno, rfl⟩ | ⟨b, hCall⟩ | ⟨b, hCall⟩
  · obtain ⟨errno', rfl⟩ := hErrno
    exact .inl ⟨errno', rfl⟩
  · refine .inr ⟨_, .inl rfl, t, ?_, hErrno⟩
    exact bind_eq_ok_iff.mpr ⟨(t, b), hCall, rfl⟩
  · refine .inr ⟨_, .inr rfl, t, ?_, hErrno⟩
    exact bind_eq_ok_iff.mpr ⟨(t, b), hCall, rfl⟩

/-- What happens at the hub is a step on the routes, or none, up to `errno`. -/
theorem Valid.serve_simulated (hValid : s.Valid) (hRoot : 0 < s.routes.length) {M : Set Nat}
    {P : Outside D → Stackish.Tree D → Prop} {act : HubAct D} (hAttends : s.Attends M P act)
    (hStep : s.serve lib place act = .ok s') :
    (∃ errno, s' = s.withErrno errno) ∨
      ∃ (onRoutes : RouteAct Callback D) (t : Routing Callback) (errno : Nat), s.Ready M onRoutes ∧
        s.step lib place onRoutes = .ok t ∧ s' = t.withErrno errno := by
  cases act with
  | login m => exact .inr ⟨.login m, s', s'.errno, hAttends, hStep, rfl⟩
  | close m => exact .inr ⟨.close m, s', s'.errno, hAttends, hStep, rfl⟩
  | message out sender body =>
    obtain ⟨⟨u, svc⟩, hService, hPure⟩ := bind_eq_ok_iff.mp hStep
    cases hPure
    rcases hValid.serviceMessage_simulated hRoot hService with hSame | ⟨c, hRequest, t, hCall, errno, rfl⟩
    · exact .inl hSame
    · refine .inr ⟨.call c, t, errno, ?_, hCall, rfl⟩
      rcases hRequest with rfl | rfl
      · exact hAttends.1
      · exact hAttends.1

/-! ## What is guarded -/

/-- The routes of `start` are where they were, with their callbacks, and no route with a callback has
members. -/
structure Guarded (start s : Routing Callback) : Prop where
  valid : s.Valid
  root : 0 < s.routes.length
  strict : Strict s
  edges : ∀ {i c : Nat} {l : Bytes}, start.edges i l = some c → s.edges i l = some c
  callbacks : ∀ {i : Nat} {route : Route Callback}, start.routes[i]? = some route →
    ∃ route', s.routes[i]? = some route' ∧ route'.callback = route.callback
  empty : ∀ {i : Nat} {route : Route Callback}, s.routes[i]? = some route → route.callback ≠ none →
    s.membersOf i = 0

section Guarded
variable {start t : Routing Callback}

theorem Guarded.sameTree (h : Guarded start s) (hSame : SameTree s s') (hValid : s'.Valid)
    (hEmpty : ∀ {i : Nat} {route : Route Callback}, s.routes[i]? = some route → route.callback ≠ none →
      s.membersOf i = 0 → s'.membersOf i = 0) : Guarded start s' where
  valid := hValid
  root := hSame.length ▸ h.root
  strict := h.strict.sameTree hSame
  edges := by
    rw [hSame.edges]
    exact h.edges
  callbacks := by
    intro i route hRoute
    obtain ⟨middle, hMiddle, hCallback⟩ := h.callbacks hRoute
    obtain ⟨route', hRoute', -, hCallback', -⟩ := hSame.routes hMiddle
    exact ⟨route', hRoute', hCallback'.trans hCallback⟩
  empty := by
    intro i route' hRoute' hInternal
    obtain ⟨route, hRoute, -, hCallback, -⟩ := hSame.back hRoute'
    rw [hCallback] at hInternal
    exact hEmpty hRoute hInternal (h.empty hRoute hInternal)

theorem Guarded.withErrno (h : Guarded start s) (errno : Nat) : Guarded start (s.withErrno errno) :=
  h.sameTree ⟨rfl, fun hRoute => ⟨_, hRoute, rfl, rfl, rfl⟩⟩ (h.valid.withErrno errno) fun _ _ hNone => hNone

theorem Guarded.kept (h : Guarded start s) (hKept : Kept s s') (hShrinks : Shrinks s s') : Guarded start s' := by
  apply h.sameTree hKept.tree hKept.valid
  intro i route _ _ hNone
  exact Multiset.le_zero.mp (hNone ▸ hShrinks i)

/-- A path of words is entered. -/
theorem Guarded.extends (h : Guarded start s) {first : Nat} (hExtends : Extends first s t) (hValid : t.Valid)
    (hStrict : Strict t) (hEdges : ∀ {i c : Nat} {l : Bytes}, s.edges i l = some c → t.edges i l = some c) :
    Guarded start t where
  valid := hValid
  root := Nat.lt_of_lt_of_le h.root hExtends.le
  strict := hStrict
  edges := fun hEdge => hEdges (h.edges hEdge)
  callbacks := by
    intro i route hRoute
    obtain ⟨middle, hMiddle, hCallback⟩ := h.callbacks hRoute
    obtain ⟨route', hRoute', hSame⟩ := hExtends.old hMiddle
    exact ⟨route', hRoute', hSame.callback.trans hCallback⟩
  empty := by
    intro i route' hRoute' hInternal
    rw [hExtends.membersOf]
    rcases Nat.lt_or_ge i s.routes.length with hLt | hGe
    · obtain ⟨route, hRoute⟩ := getElem?_routes hLt
      obtain ⟨route'', hRoute'', hSame⟩ := hExtends.old hRoute
      rw [hRoute'] at hRoute''
      cases hRoute''
      rw [hSame.callback] at hInternal
      exact h.empty hRoute hInternal
    · exact absurd (hExtends.fresh hGe hRoute').1 hInternal

/-- The nodes behind the first of a path have names. -/
theorem none_not_mem_steps (child : Stackish.Tree D) : none ∉ steps child := by
  induction child with
  | nil => exact List.not_mem_nil
  | node d c sibling _ ih =>
    rw [steps]
    split
    · rename_i hStep
      intro hMem
      rcases List.mem_cons.mp hMem with hNone | hMem
      · rw [isStep, ← hNone] at hStep
        simp at hStep
      · exact ih hMem
    · exact ih

/-- A NULL name is that of no child, and none can be made with it. -/
theorem Valid.add_unnamed (hValid : s.Valid) (hRoot : 0 < s.routes.length) {n : Stackish.Tree D}
    (hNone : none ∈ pathOf n) : add lib (pathOf n) 0 s = .error noName := by
  cases n with
  | nil => cases hNone
  | node d child sibling =>
    rcases List.mem_cons.mp hNone with hNone | hNone
    · obtain ⟨route, hRoute⟩ := getElem?_routes hRoot
      obtain ⟨c, hFind, hNamed⟩ := hValid.findChild_spec hRoute none
      rw [pathOf, ← hNone, add, bind_of_ok hFind]
      cases c with
      | none => rfl
      | some c =>
        obtain ⟨a, hName, -⟩ := hValid.name_of_child hRoute hNamed.1
        rw [hNamed.2] at hName
        cases hName
    · exact absurd hNone (none_not_mem_steps child)

theorem Guarded.added (hLib : lib.Sound) (h : Guarded start s) {n : Stackish.Tree D} (hn : n ≠ .nil)
    (hNul : NulFree (pathOf n)) (hExtends : Extends 0 s t) (hValid : t.Valid) {k : Option Nat}
    (hAdd : add lib (pathOf n) 0 s = .ok (t, k)) : Guarded start t := by
  have hNamed : none ∉ pathOf n := by
    intro hNone
    rw [h.valid.add_unnamed h.root hNone] at hAdd
    cases hAdd
  rw [pathOf_eq_map hNamed] at hAdd
  obtain ⟨hStrict, hEdges, -⟩ := h.valid.add_edges hLib (wordPath_ne_nil ⟨hNamed, hn⟩)
    (nul_of_nulFree hNamed hNul) h.strict h.root hAdd
  apply h.extends hExtends hValid hStrict
  intro i c l hEdge
  rw [hEdges]
  exact enter_keeps hEdge

theorem Guarded.memberAdded (h : Guarded start s) {r m : Nat} (hAdded : MemberAdded place s r m s') :
    Guarded start s' := by
  apply h.sameTree hAdded.sameTree (hAdded.valid h.valid)
  intro i route hRoute hInternal hNone
  obtain ⟨route', -, -, -, hRoute', hExternal, -⟩ := hAdded.heaps
  have hNe : i ≠ r := by
    rintro rfl
    rw [hRoute] at hRoute'
    cases hRoute'
    exact hInternal hExternal
  rw [hAdded.counts.1, if_neg hNe]
  exact hNone

theorem Guarded.register (hLib : lib.Sound) (h : Guarded start s) (hErrno : s.errno = 0) {n : Stackish.Tree D}
    (hn : n ≠ .nil) (hNul : NulFree (pathOf n)) {m : Nat} {b : Bool}
    (hRegistered : Registered lib place s n m t (s', b)) : Guarded start s' := by
  obtain ⟨hSame, hWhy⟩ | ⟨-, -, r, -, hAdd, -, -, hAdded⟩ := hRegistered.result
  · cases hSame
    rcases hWhy with ⟨rfl, -⟩ | hSet | ⟨r, route, hAdd, -⟩
    · exact h.withErrno 0
    · exact absurd hErrno hSet
    · exact (h.added hLib hn hNul hRegistered.extends' hRegistered.valid hAdd).withErrno 0
  · exact (h.added hLib hn hNul hRegistered.extends' hRegistered.valid hAdd).memberAdded hAdded

theorem Guarded.called (hLib : lib.Sound) (h : Guarded start s) {c : Call D} (hClean : CallClean c)
    (hLive : s.Live c.member) (hCall : s.call lib place c = .ok s') : Guarded start s' := by
  have hReady : s.Ready Set.univ (.call c : RouteAct Callback D) := hLive
  have hStepped := h.valid.stepped hLib h.root hReady hCall
  cases c with
  | register errno n m =>
    obtain ⟨rfl, hNul⟩ := hClean
    obtain ⟨t, b, hRegistered⟩ := hStepped
    have hn : n ≠ .nil := by
      rintro rfl
      cases hCall
    exact (h.withErrno 0).register hLib rfl hn hNul hRegistered
  | unregister errno n m =>
    obtain rfl | rfl | ⟨r, -, -, hGone⟩ := hStepped
    · exact h.withErrno errno
    · exact h.withErrno 0
    · exact (h.withErrno errno).kept hGone.kept hGone.shrinks
  | unregisterAll m => exact h.kept hStepped.kept hStepped.shrinks

/-- The body of a message as `Node_parse` makes it from some buffer. -/
def FromWire (out : Outside D) (body : Stackish.Tree D) : Prop :=
  ∃ buf heap errno r, buf.length < 2 ^ 31 ∧ Finishes (Stackish.nodeParse out.lib · heap errno buf) (.ok r) ∧
    r.root ≠ none ∧ Represents r.heap none r.root body

theorem nul_of_shaped {d : Stackish.NodeData D} (hd : Stackish.NodeShape d) {name : Bytes}
    (hName : d.name = some name) : 0 ∉ name := by
  have hAttrib : Stackish.attribName name → 0 ∉ name := by
    rintro ⟨w, hw, rfl⟩ hMem
    rcases List.mem_cons.mp hMem with hZero | hMem
    · cases hZero
    · exact Stackish.isWord_no_nul hw 0 hMem rfl
  obtain ⟨n, value⟩ := d
  cases value with
  | group =>
    rcases hd name hName with hWord | hName
    · exact fun hMem => Stackish.isWord_no_nul hWord 0 hMem rfl
    · exact hAttrib hName
  | string => exact hAttrib (hd.1 name hName)
  | number | blob | float => exact hAttrib (hd name hName)

theorem FromWire.nulFree {body : Stackish.Tree D} (h : FromWire out body) :
    NulFree (pathOf (extractMessage (children body))) := by
  obtain ⟨buf, heap, errno, r, hLen, hParse, hNode, hTree⟩ := h
  obtain ⟨-, t, hDenotes, hTree'⟩ := Stackish.denotes_of_finishes hLen hParse hNode
  obtain rfl := hTree.unique hTree'
  obtain ⟨name, kids, rfl, -, hShape⟩ := hDenotes.shaped
  have hChildren : ∀ t : Stackish.Tree D, Stackish.Shaped t → Stackish.Shaped (children t) := by
    intro t ht
    cases t with
    | nil => exact trivial
    | node d c sibling => exact ht.2.2.1
  have hSteps : ∀ t : Stackish.Tree D, Stackish.Shaped t → NulFree (steps t) := by
    intro t ht a ha
    induction t with
    | nil => cases ha
    | node d c sibling _ ih =>
      rw [steps] at ha
      split at ha
      · rcases List.mem_cons.mp ha with hSame | ha
        · exact nul_of_shaped ht.1 hSame.symm
        · exact ih ht.2.2.2 ha
      · exact ih ht.2.2.2 ha
  have hMessage : Stackish.Shaped (extractMessage (children (.node ⟨name, .group⟩ kids .nil : Stackish.Tree D))) :=
    hChildren _ (hChildren _ hShape)
  generalize extractMessage _ = message at hMessage ⊢
  cases message with
  | nil =>
    intro a ha
    cases ha
  | node d c sibling =>
    intro a ha
    rcases List.mem_cons.mp ha with hSame | ha
    · exact nul_of_shaped hMessage.1 hSame.symm
    · exact hSteps c hMessage.2.2.1 a ha

theorem Guarded.serve (hLib : lib.Sound) (h : Guarded start s) {M : Set Nat} {act : HubAct D}
    (hAttends : s.Attends M FromWire act) (hStep : s.serve lib place act = .ok s') : Guarded start s' := by
  cases act with
  | login m =>
    cases hStep
    apply h.sameTree (sameTree_setRoutesOf s m .create) (h.valid.login m)
    exact fun _ _ hNone => hNone
  | message out sender body =>
    obtain ⟨hLive, hWire⟩ := hAttends
    obtain ⟨⟨u, svc⟩, hService, hPure⟩ := bind_eq_ok_iff.mp hStep
    cases hPure
    rcases h.valid.serviceMessage_simulated h.root hService with ⟨errno, rfl⟩ | ⟨c, hRequest, t, hCall, errno, rfl⟩
    · exact h.withErrno errno
    · apply Guarded.withErrno
      have hClean : CallClean c ∧ c.member = sender := by
        rcases hRequest with rfl | rfl
        · exact ⟨⟨rfl, hWire.nulFree⟩, rfl⟩
        · exact ⟨⟨rfl, hWire.nulFree⟩, rfl⟩
      exact h.called hLib hClean.1 (hClean.2 ▸ hLive) hCall
  | close m =>
    have hReady : s.Ready M (.close m : RouteAct Callback D) := hAttends
    have hClose : s.step lib place (.close m : RouteAct Callback D) = .ok s' := hStep
    obtain ⟨t, hGone, rfl⟩ := h.valid.stepped hLib h.root hReady hClose
    have hT := h.kept hGone.kept hGone.shrinks
    have hSame : SameTree t (t.forget m) := ⟨rfl, fun hRoute => ⟨_, hRoute, rfl, rfl, rfl⟩⟩
    exact hT.sameTree hSame (hT.valid.forget m) fun _ _ hNone => hNone

theorem Served.guarded (hLib : lib.Sound) {M : Set Nat} (hStart : Guarded start start)
    (h : Served lib place M (FromWire (D := D)) start s) : Guarded start s := by
  induction h with
  | start => exact hStart
  | step _ hAttends hStep ih => exact ih.serve hLib hAttends hStep

end Guarded

/-! ## The services are registered -/

/-- A tree to register services in: nobody is a member of anything. -/
structure Bare (s : Routing Callback) : Prop where
  valid : s.Valid
  root : 0 < s.routes.length
  strict : Strict s
  errno : s.errno = 0
  empty : ∀ i, s.membersOf i = 0

def servicePath (reg : Registration) : List Bytes := [reg.root, reg.child]

/-- The names are words of a path. -/
def PlainService (reg : Registration) : Prop := 0 ∉ reg.root ∧ 0 ∉ reg.child ∧ bchar reg.child 0 ≠ 64

instance (reg : Registration) : Decidable (PlainService reg) := inferInstanceAs (Decidable (_ ∧ _ ∧ _))

/-- The service is at its place. -/
def Installed (s : Routing Callback) (reg : Registration) : Prop :=
  ∃ r route, walk s.edges 0 (servicePath reg) = some r ∧ s.routes[r]? = some route ∧
    route.callback = some reg.callback

theorem PlainService.pathOf {reg : Registration} (h : PlainService reg) :
    pathOf (reg.node : Stackish.Tree D) = (servicePath reg).map some := by
  have hStep : isStep (⟨some reg.child, .group⟩ : Stackish.NodeData D) = true := by
    simpa [isStep] using h.2.2
  simp only [Registration.node, Routing.pathOf, steps, hStep, servicePath, List.map_cons, List.map_nil, if_true]

theorem PlainService.nul {reg : Registration} (h : PlainService reg) : ∀ l ∈ servicePath reg, 0 ∉ l := by
  intro l hl
  rcases List.mem_pair.mp hl with rfl | rfl
  · exact h.1
  · exact h.2.1

section Callback
variable {r : Nat} {route : Route Callback}

theorem name_setCallback (hRoute : s.routes[r]? = some route) (callback : Callback) (j : Nat) :
    (s.setRoute r { route with callback := some callback }).name j = s.name j := by
  have hName : ({ route with callback := some callback } : Route Callback).name = route.name := rfl
  exact name_setRoute hRoute hName j

/-- A callback is no part of the trie. -/
theorem Strict.setCallback (hStrict : Strict s) (hRoute : s.routes[r]? = some route) (callback : Callback) :
    Strict (s.setRoute r { route with callback := some callback }) where
  distinct := by
    intro i route' hNew
    obtain ⟨old, hOld, -, -, hChildren, -⟩ := getElem?_setCallback hRoute callback hNew
    rw [hChildren]
    intro c hc c' hc' hName
    rw [name_setCallback hRoute, name_setCallback hRoute] at hName
    exact hStrict.distinct hOld c hc c' hc' hName
  nodup := by
    intro i route' hNew
    obtain ⟨old, hOld, -, -, hChildren, -⟩ := getElem?_setCallback hRoute callback hNew
    rw [hChildren]
    exact hStrict.nodup hOld
  parent := by
    intro i i' c route' route'' hNew hNew' hc hc'
    obtain ⟨old, hOld, -, -, hChildren, -⟩ := getElem?_setCallback hRoute callback hNew
    obtain ⟨old', hOld', -, -, hChildren', -⟩ := getElem?_setCallback hRoute callback hNew'
    rw [hChildren] at hc
    rw [hChildren'] at hc'
    exact hStrict.parent hOld hOld' hc hc'

theorem Valid.edges_setCallback (hValid : s.Valid) (hStrict : Strict s) (hRoute : s.routes[r]? = some route)
    (callback : Callback) : (s.setRoute r { route with callback := some callback }).edges = s.edges := by
  funext i l
  apply Option.ext
  intro c
  rw [(hValid.setCallback hRoute callback).edges_iff (hStrict.setCallback hRoute callback), hValid.edges_iff hStrict,
    name_setCallback hRoute]
  constructor
  · rintro ⟨route', hNew, hc, hName⟩
    obtain ⟨old, hOld, -, -, hChildren, -⟩ := getElem?_setCallback hRoute callback hNew
    rw [hChildren] at hc
    exact ⟨old, hOld, hc, hName⟩
  · rintro ⟨old, hOld, hc, hName⟩
    by_cases hi : i = r
    · subst hi
      rw [hRoute] at hOld
      cases hOld
      exact ⟨_, getElem?_setRoute_self (lt_of_getElem? hRoute) _, hc, hName⟩
    · exact ⟨old, (getElem?_setRoute_ne hi _).trans hOld, hc, hName⟩

end Callback

/-- `Route_register_callback` puts the service at its place and leaves the others where they are. -/
theorem Bare.registerCallback (hLib : lib.Sound) (h : Bare s) {reg : Registration} (hPlain : PlainService reg)
    (hCall : s.registerCallback lib (reg.node : Stackish.Tree D) reg.callback = .ok (s', true)) :
    Bare s' ∧ Installed s' reg ∧ ∀ other, servicePath other ≠ servicePath reg → Installed s other →
      Installed s' other := by
  have hn : (reg.node : Stackish.Tree D) ≠ .nil := nofun
  obtain ⟨t, hValid, hExtends, hSame | ⟨-, -, r, route, hAdd, hRoute, hNew⟩⟩ :=
    (h.valid.registerCallback_spec hLib h.root hn reg.callback).of_ok hCall
  · cases hSame
  dsimp only at hNew
  have hEntered := (h.valid.add_spec hLib (by rw [hPlain.pathOf]; exact List.cons_ne_nil _ _) h.root).of_ok hAdd
  rw [hPlain.pathOf] at hAdd hEntered
  obtain ⟨hStrict, hEdges, -⟩ :=
    h.valid.add_edges hLib (List.cons_ne_nil _ _) hPlain.nul h.strict h.root hAdd
  have hRootT := Nat.lt_of_lt_of_le h.root hExtends.le
  have hEdges' : s'.edges = t.edges := hNew ▸ hValid.edges_setCallback hStrict hRoute reg.callback
  have hWalk : walk t.edges 0 (servicePath reg) = some r := by
    obtain ⟨k, hk, -, hFound⟩ := hEntered.found
    cases hk
    have hPath := hFound (by
      intro a ha
      obtain ⟨l, hl, hSame⟩ := List.mem_map.mp ha
      cases hSame
      exact hPlain.nul _ hl)
    rw [hValid.findPath_walk hRootT] at hPath
    exact Except.ok.inj hPath
  have hSelf : s'.routes[r]? = some { route with callback := some reg.callback } :=
    hNew ▸ getElem?_setRoute_self (lt_of_getElem? hRoute) _
  refine ⟨⟨?_, ?_, ?_, ?_, ?_⟩, ?_, ?_⟩
  · exact hNew ▸ hValid.setCallback hRoute reg.callback
  · exact hNew ▸ Nat.lt_of_lt_of_le hRootT List.length_set.symm.le
  · exact hNew ▸ hStrict.setCallback hRoute reg.callback
  · rw [hNew]
    exact hExtends.errno.trans h.errno
  · intro i
    rw [hNew, membersOf_setRoute (lt_of_getElem? hRoute)]
    split
    · rw [← membersOf_eq hRoute, hExtends.membersOf, h.empty]
    · rw [hExtends.membersOf, h.empty]
  · exact ⟨r, _, hEdges' ▸ hWalk, hSelf, rfl⟩
  · rintro other hOther ⟨k, old, hOld, hOldRoute, hCallback⟩
    have hKeep : walk t.edges 0 (servicePath other) = some k := by
      apply walk_keeps _ hOld
      intro j m k hEdge
      rw [hEdges]
      exact enter_keeps hEdge
    have hNe : k ≠ r := by
      rintro rfl
      exact hOther ((hValid.isTrie hStrict).walk_injective hKeep hWalk)
    obtain ⟨kept, hKept, hSameRoute⟩ := hExtends.old hOldRoute
    refine ⟨k, kept, hEdges' ▸ hKeep, ?_, hSameRoute.callback.trans hCallback⟩
    rw [hNew, getElem?_setRoute_ne hNe]
    exact hKept

/-- `Hub_commands_register` puts all services at their places. -/
theorem Bare.commandsRegister (hLib : lib.Sound) {regs : List Registration} (hPlain : ∀ reg ∈ regs, PlainService reg)
    (hDistinct : (regs.map servicePath).Nodup) (h : Bare s)
    (hCall : s.commandsRegister lib D regs = .ok (s', true)) :
    Bare s' ∧ (∀ reg ∈ regs, Installed s' reg) ∧
      ∀ other, servicePath other ∉ regs.map servicePath → Installed s other → Installed s' other := by
  induction regs generalizing s with
  | nil =>
    cases hCall
    exact ⟨h, nofun, fun _ _ hInstalled => hInstalled⟩
  | cons reg rest ih =>
    obtain ⟨hReg, hRest⟩ := List.forall_mem_cons.mp hPlain
    obtain ⟨hNew, hDistinct⟩ := List.nodup_cons.mp hDistinct
    rw [Routing.commandsRegister] at hCall
    split at hCall
    swap
    · cases hCall
    obtain ⟨⟨t, b⟩, hFirst, hCall⟩ := bind_eq_ok_iff.mp hCall
    dsimp only at hCall
    split at hCall
    swap
    · cases hCall
    rename_i hPasses
    obtain rfl : b = true := (Bool.and_eq_true_iff.mp hPasses).1
    obtain ⟨hBare, hInstalled, hOthers⟩ := h.registerCallback hLib hReg hFirst
    obtain ⟨hBare', hInstalled', hOthers'⟩ := ih hRest hDistinct hBare hCall
    refine ⟨hBare', List.forall_mem_cons.mpr ⟨hOthers' reg hNew hInstalled, hInstalled'⟩, ?_⟩
    intro other hOther hOld
    obtain ⟨hNe, hOther⟩ := not_or.mp (List.mem_cons.not.mp hOther)
    exact hOthers' other hOther (hOthers other hNe hOld)

theorem createRoot_bare {name : Option Bytes} (h : createRoot name = .ok s) : Bare s := by
  obtain ⟨hValid, -, -, hErrno⟩ := createRoot_valid h
  have hTree : Treelike s := (start_treelike h []).1
  exact ⟨hValid, hTree.root, hTree.strict, hErrno, createRoot_membersOf h⟩

theorem registrations_plain : ∀ reg ∈ registrations, PlainService reg := by decide

theorem registrations_distinct : (registrations.map servicePath).Nodup := by decide

theorem Started.bare (hLib : lib.Sound) (h : Started lib D s) : Bare s ∧ ∀ reg ∈ registrations, Installed s reg := by
  obtain ⟨root, hRoot, hCall⟩ := h
  obtain ⟨hBare, hInstalled, -⟩ :=
    (createRoot_bare hRoot).commandsRegister hLib registrations_plain registrations_distinct hCall
  exact ⟨hBare, hInstalled⟩

theorem edges_withErrno (s : Routing Callback) (errno : Nat) : (s.withErrno errno).edges = s.edges := rfl

/-- A service is found, unless `errno` is set: then nothing is. -/
theorem Guarded.find_service {start : Routing Callback} (h : Guarded start s) {reg : Registration}
    (hPlain : PlainService reg) {r : Nat} (hWalk : walk s.edges 0 (servicePath reg) = some r) (errno : Nat) :
    (s.withErrno errno).find (reg.node : Stackish.Tree D) =
      .ok (s.withErrno 0, if errno = 0 then some r else none) := by
  have hNamed : NamedRoot (reg.node : Stackish.Tree D) := by
    constructor
    · rw [hPlain.pathOf]
      simp
    · exact nofun
  have hWords : wordPath (reg.node : Stackish.Tree D) = servicePath reg := by
    apply List.map_injective_iff.mpr (Option.some_injective Bytes)
    rw [← pathOf_eq_map hNamed.1, hPlain.pathOf]
  by_cases hErrno : errno = 0
  · subst hErrno
    have hFind := (h.valid.withErrno 0).find_walk rfl h.root hNamed (show 1 ≤ routeMaxPath by decide)
    rw [hFind, hWords, edges_withErrno, hWalk, if_pos rfl]
  · obtain ⟨route, hRoute⟩ := getElem?_routes h.root
    obtain ⟨c, hFind, -⟩ := (h.valid.withErrno errno).findChild_spec hRoute (some reg.root)
    obtain ⟨j, hEdge, -⟩ := Option.bind_eq_some_iff.mp hWalk
    have hChild : (s.withErrno errno).edges 0 reg.root = c := by rw [Routing.edges, hFind]
    rw [edges_withErrno, hEdge] at hChild
    subst hChild
    rw [Registration.node, find, bind_of_ok hFind]
    dsimp only
    rw [findLoop, if_neg (show ¬(s.withErrno errno).passes _ = true by simp [passes, Routing.withErrno, hErrno]),
      if_neg hErrno]
    rfl

theorem Bare.guarded (h : Bare s) : Guarded s s :=
  ⟨h.valid, h.root, h.strict, fun hEdge => hEdge, fun hRoute => ⟨_, hRoute, rfl⟩, fun _ _ => h.empty _⟩

/-- Whatever the clients send, `Route_find` leads to the routes of the services as they were registered,
and these have no members. -/
theorem services_stay (hLib : lib.Sound) {start : Routing Callback} (hStart : Started lib D start) {M : Set Nat}
    (hRun : Served lib place M (FromWire (D := D)) start s) :
    (∀ reg ∈ registrations, ∃ r route, s.routes[r]? = some route ∧ route.callback = some reg.callback ∧
      ∀ errno, (start.withErrno errno).find (reg.node : Stackish.Tree D) =
          .ok (start.withErrno 0, if errno = 0 then some r else none) ∧
        (s.withErrno errno).find (reg.node : Stackish.Tree D) =
          .ok (s.withErrno 0, if errno = 0 then some r else none)) ∧
      ∀ (i : Nat) (route : Route Callback), s.routes[i]? = some route → route.callback ≠ none →
        route.members.members = [] := by
  obtain ⟨hBare, hInstalled⟩ := hStart.bare hLib
  have hGuarded := hRun.guarded hLib hBare.guarded
  constructor
  · intro reg hReg
    have hPlain := registrations_plain reg hReg
    obtain ⟨r, route, hWalk, hRoute, hCallback⟩ := hInstalled reg hReg
    obtain ⟨route', hRoute', hSame⟩ := hGuarded.callbacks hRoute
    refine ⟨r, route', hRoute', hSame.trans hCallback, ?_⟩
    intro errno
    exact ⟨hBare.guarded.find_service hPlain hWalk errno,
      hGuarded.find_service hPlain (walk_keeps hGuarded.edges hWalk) errno⟩
  · intro i route hRoute hInternal
    have hNone := hGuarded.empty hRoute hInternal
    rw [membersOf_eq hRoute] at hNone
    exact Multiset.coe_eq_zero _ |>.mp hNone

/-! ## A client that tries -/

/-- A group with a name around these nodes. -/
def groupNamed (name : String) (child : Stackish.Tree Unit) : Stackish.Tree Unit :=
  .node ⟨some (ascii name), .group⟩ child .nil

/-- A request to become a member of `route/register`. -/
def takeover : Stackish.Tree Unit :=
  groupNamed "req" (groupNamed "route" (groupNamed "register" (groupNamed "route" (groupNamed "register" .nil))))

/-- A file system without files, no time, and members without names. -/
def nothingOutside : Outside Unit where
  lib := Stackish.noDoubles
  errno := 0
  now := 0
  disk := ⟨fun _ => (false, 2), fun _ => ([], 0), id, fun _ => (none, 2), fun _ => (false, 2), fun _ => (none, 0), id,
    fun _ => []⟩
  owner := id
  names := fun _ => none

theorem groupNamed_plain (name : String) (hName : Stackish.isWord (ascii name) = true) {child : Stackish.Tree Unit}
    (h : Stackish.Shaped child ∧ Stackish.FloatFree child ∧ Stackish.Plain child) :
    Stackish.Shaped (groupNamed name child) ∧ Stackish.FloatFree (groupNamed name child) ∧
      Stackish.Plain (groupNamed name child) := by
  obtain ⟨hShape, hFloat, hPlain⟩ := h
  refine ⟨⟨?_, fun hLeaf => absurd rfl hLeaf, hShape, trivial⟩, ⟨rfl, hFloat, trivial⟩, rfl, hPlain, trivial⟩
  rintro n ⟨⟩
  exact .inl hName

/-- What can be printed and read back comes from the wire. -/
theorem fromWire_of_plain {out : Outside D} {name : Option Bytes} (hName : Stackish.rootName name)
    {kids : Stackish.Tree D} (hShape : Stackish.Shaped kids) (hFloat : Stackish.FloatFree kids)
    (hPlain : Stackish.Plain (.node ⟨name, .group⟩ kids .nil))
    (hLen : (Stackish.text (Stackish.tokens (.node ⟨name, .group⟩ kids .nil)) ++ [10]).length < 2 ^ 31) :
    FromWire out (.node ⟨name, .group⟩ kids .nil) := by
  have hRootShape : Stackish.Shaped (.node ⟨name, .group⟩ kids .nil : Stackish.Tree D) :=
    ⟨fun n hn => .inl (hName n hn), fun h => absurd rfl h, hShape, trivial⟩
  obtain ⟨stop, hRead⟩ := Stackish.readsTo_text out.lib hName hShape hFloat hLen
  obtain ⟨r, hEnding, hr⟩ := hRead.finishes hLen (Stackish.endsInSpace_newline _) [] (Nat.zero_le _)
  obtain ⟨root, heap, rfl, -, hTree⟩ := hEnding
  rw [(Stackish.printedTree_eq_iff hRootShape).mpr hPlain] at hTree
  refine ⟨_, [], 0, _, hLen, hr, ?_, hTree⟩
  intro hNone
  have hNil := (Stackish.represents_ne_nil hTree).mp hNone
  cases hNil

theorem takeover_fromWire : FromWire nothingOutside takeover := by
  have hNil : Stackish.Shaped (.nil : Stackish.Tree Unit) ∧ Stackish.FloatFree (.nil : Stackish.Tree Unit) ∧
      Stackish.Plain (.nil : Stackish.Tree Unit) := ⟨trivial, trivial, trivial⟩
  have hRequest := groupNamed_plain "route" (by decide) (groupNamed_plain "register" (by decide) hNil)
  have hKids := groupNamed_plain "route" (by decide) (groupNamed_plain "register" (by decide) hRequest)
  have hName : Stackish.rootName (some (ascii "req")) := by
    rintro n ⟨⟩
    decide
  exact fromWire_of_plain hName hKids.1 hKids.2.1 (groupNamed_plain "req" (by decide) hKids).2.2 (by decide)

/-- The routes of a new hub -/
def startedHub : Run (Routing Callback × Bool) := do
  let root ← createRoot (some (ascii "root"))
  commandsRegister plainLib Unit registrations root

theorem exists_started : ∃ start, Started plainLib Unit start ∧ startedHub = .ok (start, true) := by
  have hTrue : startedHub.toOption.map Prod.snd = some true := by decide +kernel
  cases hHub : startedHub with
  | error e =>
    rw [hHub] at hTrue
    cases hTrue
  | ok u =>
    obtain ⟨start, b⟩ := u
    rw [hHub] at hTrue
    obtain rfl : b = true := Option.some.inj hTrue
    obtain ⟨root, hRoot, hCall⟩ := bind_eq_ok_iff.mp hHub
    exact ⟨start, ⟨root, hRoot, hCall⟩, rfl⟩

/-- One client is connected to a new hub. -/
theorem exists_served : ∃ start, startedHub = .ok (start, true) ∧ Started plainLib Unit start ∧
    Served plainLib id {1} (FromWire (D := Unit)) start (start.login 1) ∧ (start.login 1).Live 1 := by
  obtain ⟨start, hStart, hHub⟩ := exists_started
  have hNone : startedHub.toOption.map (fun u => decide (u.1.Live 1)) = some false := by decide +kernel
  rw [hHub] at hNone
  have hLogin : start.Attends {1} FromWire (.login 1 : HubAct Unit) :=
    ⟨rfl, of_decide_eq_false (Option.some.inj hNone)⟩
  refine ⟨start, hHub, hStart, .step .start hLogin rfl, ?_⟩
  rw [Live, login, lookup_setRoutesOf_self]
  rfl

theorem services_stay_takeover :
    ∃ start s, Started plainLib Unit start ∧ Served plainLib id {1} (FromWire (D := Unit)) start s ∧
      (start.login 1).serve plainLib id (.message nothingOutside 1 takeover) = .ok s ∧
      ∃ (r : Nat) (route : Route Callback), s.routes[r]? = some route ∧ route.callback = some .routeRegister := by
  obtain ⟨start, hHub, hStart, hFirst, hLive⟩ := exists_served
  have hServed : startedHub.toOption.map (fun u => ((u.1.login 1).serve plainLib id
      (.message nothingOutside 1 takeover)).toOption.isSome) = some true := by decide +kernel
  rw [hHub] at hServed
  have hMessage : (start.login 1).Attends {1} FromWire (.message nothingOutside 1 takeover) :=
    ⟨hLive, takeover_fromWire⟩
  cases hSecond : (start.login 1).serve plainLib id (.message nothingOutside 1 takeover) with
  | error e =>
    have hError : ((start.login 1).serve plainLib id (.message nothingOutside 1 takeover)).toOption.isSome = true :=
      Option.some.inj hServed
    rw [hSecond] at hError
    cases hError
  | ok s =>
    have hRun : Served plainLib id {1} FromWire start s := .step hFirst hMessage hSecond
    obtain ⟨hServices, -⟩ := services_stay plainLib_sound hStart hRun
    obtain ⟨r, route, hRoute, hCallback, -⟩ := hServices _ List.mem_cons_self
    exact ⟨start, s, hStart, hRun, hSecond, r, route, hRoute, hCallback⟩

end Utu.Hub.Routing
