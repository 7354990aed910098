import Utu.Hub.Guarded
import Utu.Stackish.Room

/-!
# Whether a message can be served

`Hub_service_message` returns, unless it stops in one of its callbacks. What it
takes to come through each of them is said here of the message, the routes and
the answers of the file system.
-/

namespace Utu.Hub
open Comparator Outcome LinkedForest Stackish
set_option autoImplicit false

/-! ## The file system -/

namespace Disk
variable (disk : Disk)

/-- The names of a directory fit in a string that is so long already. -/
def ListingFits : Nat → List Bytes → Prop
  | _, [] => True
  | n, name :: rest =>
    n + (cstr (some name)).length + 1 ≤ intMax ∧ ListingFits (min (n + (cstr (some name)).length + 1) (intMax - 1)) rest

def listingText (names : List Bytes) : Bytes := names.flatMap fun name => cstr (some name) ++ [10]

/-- An open directory can be listed, and is closed without an error. -/
def Lists (path : Bytes) : Prop :=
  (disk.opendir path).1 = true →
    if (disk.opendir path).2 = 0 then
      ListingFits 0 (disk.readdir path).1 ∧
        disk.closedir (if 64 * 1024 - 200 < (listingText (disk.readdir path).1).length then 0
          else (disk.readdir path).2) = 0
    else disk.closedir 0 = 0

/-- An open file is closed without an error. -/
def Gets (path : Bytes) : Prop := (disk.fopen path).1 = true → disk.fclose 0 = 0

end Disk

/-- The answer of an operation can be sent. -/
def Info.Sendable (info : Info) : Prop := info.errno = 0 ∧ (info.error = none → info.data ≠ none)

/-- The operation comes to an answer that can be sent exactly if `p`. -/
def Answers (p : Prop) (x : Run Info) : Prop :=
  (p ∧ ∃ info, x = .ok info ∧ info.Sendable) ∨
    (¬p ∧ ((∃ info, x = .ok info ∧ ¬info.Sendable) ∨ x = .error .heapOverflow))

theorem Answers.of_ok {p : Prop} {x : Run Info} {info : Info} (hx : x = .ok info) (h : p ↔ info.Sendable) :
    Answers p x := by
  by_cases hp : p
  · exact .inl ⟨hp, info, hx, h.mp hp⟩
  · exact .inr ⟨hp, .inl ⟨info, hx, h.not.mp hp⟩⟩

namespace Disk
variable {disk : Disk} {path : Bytes}

/-- The listing of so many names, as long as the limit allows -/
theorem listing_fits (names : List Bytes) {n : Nat} {str : Bytes} (hStr : str.length = min n (intMax - 1)) :
    (ListingFits str.length names ∧ ∃ out, listing names str = .ok out ∧
      out.length = min (n + (listingText names).length) (intMax - 1)) ∨
      (¬ListingFits str.length names ∧ listing names str = .error .heapOverflow) := by
  induction names generalizing n str with
  | nil => exact .inl ⟨trivial, str, rfl, hStr⟩
  | cons name rest ih =>
    by_cases hRoom : str.length + (cstr (some name)).length + 1 ≤ intMax
    · have hLength : (bconchar (str ++ cstr (some name)) 10).2.length =
          min (str.length + (cstr (some name)).length + 1) (intMax - 1) := by
        rw [bconchar]
        split
        all_goals
          simp only [List.length_append, List.length_singleton] at *
          omega
      have hTotal :
          (listingText (name :: rest)).length = (cstr (some name)).length + 1 + (listingText rest).length := by
        simp only [listingText, List.flatMap_cons, List.length_append, List.length_singleton]
      have hNext : (bconchar (str ++ cstr (some name)) 10).2.length =
          min (n + (cstr (some name)).length + 1) (intMax - 1) := by
        rw [hLength]
        omega
      rw [listing, bind_of_ok (bconcat_fits hRoom), ListingFits, ← hLength, hTotal]
      rcases ih hNext with ⟨hFits, out, hOut, hLen⟩ | ⟨hFits, hFault⟩
      · exact .inl ⟨⟨hRoom, hFits⟩, out, hOut, by rw [hLen]; congr 1; omega⟩
      · exact .inr ⟨fun h => hFits h.2, hFault⟩
    · refine .inr ⟨fun h => hRoom h.1, ?_⟩
      rw [listing, bconcat, if_neg hRoom]
      rfl

theorem infoList_answers : Answers (disk.Lists path) (disk.infoList path) := by
  rw [infoList, Lists]
  cases hOpen : disk.opendir path with
  | mk dir errno =>
    dsimp only
    cases dir with
    | false => exact .of_ok rfl (iff_of_true (by simp) ⟨rfl, by simp⟩)
    | true =>
      by_cases hErrno : errno = 0
      · subst hErrno
        have hEmpty : ([] : Bytes).length = min 0 (intMax - 1) := rfl
        rw [if_pos rfl, if_pos rfl]
        rcases listing_fits (disk.readdir path).1 hEmpty with ⟨hFits, str, hStr, hLength⟩ | ⟨hFits, hFault⟩
        · have hLarge : 64 * 1024 - 200 < str.length ↔
              64 * 1024 - 200 < (listingText (disk.readdir path).1).length := by
            rw [hLength, intMax]
            omega
          rw [bind_of_ok hStr]
          by_cases hLong : 64 * 1024 - 200 < str.length
          · rw [if_pos hLong, if_pos (hLarge.mp hLong)]
            exact .of_ok rfl ⟨fun h => ⟨(h rfl).2, by simp⟩, fun h _ => ⟨hFits, h.1⟩⟩
          · rw [if_neg hLong, if_neg (hLarge.not.mp hLong)]
            exact .of_ok rfl ⟨fun h => ⟨(h rfl).2, by simp⟩, fun h _ => ⟨hFits, h.1⟩⟩
        · exact .inr ⟨fun h => hFits (h rfl).1, .inr (bind_of_error hFault _)⟩
      · rw [if_neg hErrno, if_neg (show ¬(true && errno == 0) = true by simpa using hErrno)]
        exact .of_ok rfl ⟨fun h => ⟨h rfl, by simp⟩, fun h _ => h.1⟩

theorem infoGet_answers : Answers (disk.Gets path) (disk.infoGet path) := by
  unfold infoGet Gets
  split
  · rename_i hOpen
    rw [hOpen]
    split
    · exact .of_ok rfl ⟨fun h => ⟨h rfl, by simp⟩, fun h _ => h.1⟩
    · exact .of_ok rfl ⟨fun h => ⟨h rfl, by simp⟩, fun h _ => h.1⟩
  · rename_i hOpen
    rw [hOpen]
    exact .of_ok rfl ⟨fun h => ⟨h rfl, by simp⟩, fun h _ => h.1⟩
  · rename_i hOpen
    rw [hOpen]
    exact .of_ok rfl (iff_of_true (by simp) ⟨rfl, by simp⟩)

theorem length_printInt_le (n : Int) : (printInt (n.bmod (2 ^ 32))).length ≤ 21 := by
  have hSmall : (n.bmod (2 ^ 32)).natAbs < 2 ^ 64 := by
    have hLt : n.bmod (2 ^ 32) < ((2 ^ 32 : Nat) + 1) / 2 := Int.bmod_lt (by decide)
    have hGe : -(((2 ^ 32 : Nat) : Int) / 2) ≤ n.bmod (2 ^ 32) := Int.le_bmod (by decide)
    omega
  have hShort := print_length_small hSmall
  rw [printInt]
  split
  · rw [List.length_cons]
    omega
  · omega

theorem infoTag_answers : Answers True (disk.infoTag path) := by
  unfold infoTag
  split
  · rename_i ino size mtime hStat
    refine .of_ok rfl (iff_of_true trivial ⟨rfl, fun _ => ?_⟩)
    have hIno := length_printInt_le ino
    have hSize := length_printInt_le size
    have hTime := length_printInt_le mtime
    dsimp only
    rw [bformat, if_pos]
    · simp
    · apply (bformataLoop_iff _).mpr
      simp only [List.length_append, List.length_cons, intMax]
      omega
  · exact .of_ok rfl (iff_of_true trivial ⟨rfl, by simp⟩)

end Disk

/-! ## Callbacks -/

/-- The call returns exactly if `p`, but for want of memory. -/
def Returns {α : Type} (p : Prop) (x : Run α) : Prop :=
  (p ∧ Barring {noMemory} x fun _ => True) ∨ (¬p ∧ ∃ e, e ≠ noMemory ∧ x = .error e)

namespace Returns
variable {α β : Type} {p q : Prop} {x : Run α} {f : α → Run β}

theorem iff (h : Returns p x) : (Barring {noMemory} x fun _ => True) ↔ p := by
  rcases h with ⟨hp, hx⟩ | ⟨hp, e, he, rfl⟩
  · exact iff_of_true hx hp
  · refine iff_of_false ?_ hp
    rintro (⟨e', he', hx⟩ | ⟨a, hx, -⟩)
    · cases hx
      exact he he'
    · cases hx

theorem of_ok {a : α} (hx : x = .ok a) (hp : p) : Returns p x := .inl ⟨hp, .of_eq hx trivial⟩

theorem of_error {e : Fault} (hx : x = .error e) (he : e ≠ noMemory) (hp : ¬p) : Returns p x :=
  .inr ⟨hp, e, he, hx⟩

theorem congr (h : Returns p x) (hpq : p ↔ q) : Returns q x := by
  rwa [← propext hpq]

/-- What follows always returns. -/
theorem bind (h : Returns p x) (hf : ∀ a, ∃ b, f a = .ok b) : Returns p (x >>= f) := by
  rcases h with ⟨hp, hx⟩ | ⟨hp, e, he, rfl⟩
  · refine .inl ⟨hp, hx.bind fun a _ => ?_⟩
    obtain ⟨b, hb⟩ := hf a
    exact .of_eq hb trivial
  · exact .inr ⟨hp, e, he, rfl⟩

variable {D : Type} {lib : DoubleLib D} {t : Stackish.Tree D}

/-- A tree is printed before. -/
theorem print {f : Bytes → Run β} (ht : t ≠ .nil) (h : Prints lib t → Returns q (f (treeText lib t ++ [10]))) :
    Returns (Prints lib t ∧ q) (bstrTree lib t >>= f) := by
  rcases bstrTree_room lib ht with ⟨hPrints, hRun⟩ | ⟨hPrints, e, he, hRun⟩
  · rw [bind_of_ok hRun]
    exact (h hPrints).congr (by simp [hPrints])
  · refine .of_error (bind_of_error hRun f) ?_ fun h => hPrints h.1
    rintro rfl
    rcases he with (he | he) | he
    all_goals exact absurd he (by decide)

theorem dump (ht : t ≠ .nil) {f : Unit → Run β} (h : Returns q (f ())) :
    Returns (Prints lib t ∧ q) (dumpTree lib (some t) >>= f) := by
  have hDump : (dumpTree lib (some t) >>= f) = (bstrTree lib t >>= fun _ => f ()) := by
    rw [dumpTree, Option.getD_some]
    cases bstrTree lib t <;> rfl
  rw [hDump]
  exact print ht fun _ => h

end Returns

namespace Routing
variable {D : Type} {lib : HeapLib} {place : Nat → Nat} {out : Outside D} {s : Routing Callback}

/-- The route that a message names, and which it finds while `errno` is 0 -/
def target (s : Routing Callback) (n : Stackish.Tree D) : Option (Route Callback) :=
  match s.find n with
  | .ok (_, some r) => s.routes[r]?
  | _ => none

def memberStrings (out : Outside D) : Option (Route Callback) → List (Option Bytes)
  | some route => route.members.members.map out.names
  | none => [some (ascii "Requested route does not exist.")]

def childStrings (s : Routing Callback) : Option (Route Callback) → List (Option Bytes)
  | some route => route.children.members.map s.name
  | none => []

def MembersLive (s : Routing Callback) (route : Route Callback) : Prop := ∀ m ∈ route.members.members, s.Live m

/-- The request for information can be answered, if `clean` holds of the name in it. -/
def InfoServed (out : Outside D) (clean : Bytes → Prop) : Stackish.Tree D → Prop
  | .node d (.node c child sibling) rest =>
    match c.value with
    | .string name =>
      if d.name.any (biseqcstr · (ascii "name")) then ∀ b, name = some b → b ≠ [] → clean b
      else Prints out.lib (.node d (.node c child sibling) rest)
    | _ => Prints out.lib (.node c child .nil)
  | _ => True

/-- What it takes for a callback to return, with `errno` clear -/
def CallbackServed (s : Routing Callback) (out : Outside D) (n : Stackish.Tree D) : Callback → Prop
  | .routeRegister => s.pathLoop 1 (children n) ≠ none → none ∉ pathOf n
  | .routeUnregister => True
  | .routeMembers => Prints out.lib n ∧ (∀ route, s.target n = some route → s.MembersLive route) ∧
      Prints out.lib (pathTree (treeText out.lib n ++ [10]) (ascii "members") (memberStrings out (s.target n)))
  | .routeChildren => Prints out.lib n ∧
      Prints out.lib (pathTree (treeText out.lib n ++ [10]) (ascii "children") (s.childStrings (s.target n)))
  | .memberRegister => True
  | .memberMendicate => True
  | .memberInvite => Prints out.lib n
  | .memberSend => Prints out.lib n
  | .infoGet => InfoServed out out.disk.Gets n
  | .infoList => InfoServed out out.disk.Lists n
  | .infoTag => InfoServed out (fun _ => True) n
  | .systemPing => True

/-- What it takes to come through the route of a message -/
def RouteServed (s : Routing Callback) (out : Outside D) (body : Stackish.Tree D) (route : Route Callback) : Prop :=
  match route.callback with
  | none => s.MembersLive route
  | some cb => extractMessage (children body) ≠ .nil →
      (s.withErrno 0).CallbackServed out (extractMessage (children body)) cb

/-- What it takes for the message to be served -/
def Serviceable (s : Routing Callback) (out : Outside D) (body : Stackish.Tree D) : Prop :=
  out.errno = 0 → ∀ route, (s.withErrno 0).target (children body) = some route → s.RouteServed out body route

theorem Valid.find_clear (hValid : s.Valid) (hRoot : 0 < s.routes.length) (hErrno : s.errno = 0)
    (n : Stackish.Tree D) :
    ∃ k, s.find n = .ok (s, k) ∧ ∀ r, k = some r → ∃ route, s.routes[r]? = some route ∧ s.target n = some route := by
  obtain ⟨u, k, hFind, hSame, hLt⟩ := hValid.find_ok hRoot n
  have hCleared : s.cleared = s := by rw [Routing.cleared, Routing.withErrno, ← hErrno]
  obtain rfl : u = s := by
    rcases hSame with rfl | rfl
    · rfl
    · exact hCleared
  refine ⟨k, hFind, ?_⟩
  rintro r rfl
  obtain ⟨route, hRoute⟩ := getElem?_routes (hLt r rfl).2
  exact ⟨route, hRoute, by rw [target, hFind]; exact hRoute⟩

theorem target_none {n : Stackish.Tree D} {u : Routing Callback} (h : s.find n = .ok (u, none)) :
    s.target n = none := by
  rw [target, h]

/-- Every member in the list is read. -/
theorem mapM_live {β : Type} (g : Nat → β) (ms : List Nat) :
    ((∀ m ∈ ms, s.Live m) ∧ (ms.mapM fun m => s.routesOf m >>= fun _ => pure (g m)) = .ok (ms.map g)) ∨
      (¬(∀ m ∈ ms, s.Live m) ∧ (ms.mapM fun m => s.routesOf m >>= fun _ => pure (g m)) = .error .useAfterFree) := by
  induction ms with
  | nil => exact .inl ⟨by simp, rfl⟩
  | cons m ms ih =>
    rw [List.mapM_cons, List.forall_mem_cons]
    by_cases hm : s.Live m
    · obtain ⟨routes, hLookup⟩ := hm.lookup
      rw [bind_of_ok (routesOf_eq hLookup)]
      rcases ih with ⟨hLive, hRun⟩ | ⟨hLive, hRun⟩
      · refine .inl ⟨⟨hm, hLive⟩, ?_⟩
        rw [hRun]
        rfl
      · refine .inr ⟨fun h => hLive h.2, ?_⟩
        rw [hRun]
        rfl
    · refine .inr ⟨fun h => hm h.1, ?_⟩
      have hFault : s.routesOf m = .error .useAfterFree := by
        rw [routesOf, Option.not_isSome_iff_eq_none.mp hm]
        rfl
      rw [hFault]
      rfl

theorem Valid.mapM_names (hValid : s.Valid) {r : Nat} {route : Route Callback} (hRoute : s.routes[r]? = some route) :
    (route.children.members.mapM fun c => s.route c >>= fun child => pure (some child.name)) =
      .ok (route.children.members.map s.name) := by
  have hLt : ∀ c ∈ route.children.members, c < s.routes.length := fun c hc => (hValid.forward hRoute c hc).2
  generalize route.children.members = cs at hLt
  induction cs with
  | nil => rfl
  | cons c cs ih =>
    obtain ⟨hc, hLt⟩ := List.forall_mem_cons.mp hLt
    obtain ⟨child, hChild⟩ := getElem?_routes hc
    rw [List.mapM_cons, bind_of_ok (route_eq hChild), ih hLt, List.map_cons, name_eq hChild]
    rfl

section Callbacks
variable {n : Stackish.Tree D} {sender : Nat}

theorem Valid.register_returns (hLib : lib.Sound) (hValid : s.Valid) (hRoot : 0 < s.routes.length) (hn : n ≠ .nil)
    (hLive : s.Live sender) :
    Returns (s.pathLoop 1 (children n) ≠ none → none ∉ pathOf n) (s.register lib place n sender) := by
  obtain ⟨routes, hLookup⟩ := hLive.lookup
  by_cases hNone : none ∈ pathOf n
  · cases n with
    | nil => exact absurd rfl hn
    | node d child sibling =>
      cases hLoop : s.pathLoop 1 child with
      | none =>
        have hExtend : s.extendAndFind lib (.node d child sibling) = .ok (s.cleared, none) := by
          rw [extendAndFind, hLoop]
          rfl
        refine .of_ok (bind_of_ok hExtend _) ?_
        exact fun hSome => absurd hLoop hSome
      | some rest =>
        have hExtend : s.extendAndFind lib (.node d child sibling) = .error noName := by
          rw [extendAndFind, hLoop, pathLoop_eq hLoop]
          exact hValid.add_unnamed hRoot hNone
        refine .of_error (bind_of_error hExtend _) (by decide) ?_
        intro hNamed
        exact hNamed (by simp [children, hLoop]) hNone
  · refine .inl ⟨fun _ => hNone, ((hValid.register_spec hLib place hRoot hn hLookup).weaken ?_).mono fun _ _ => trivial⟩
    rintro e (rfl | ⟨-, he⟩)
    · rfl
    · exact absurd he hNone

theorem consTree_clear (hErrno : s.errno = 0) (t : Stackish.Tree D) : consTree s.errno t = some t := if_pos hErrno

theorem node_ne_nil (d : NodeData D) (child sibling : Stackish.Tree D) :
    (.node d child sibling : Stackish.Tree D) ≠ .nil := by
  intro h
  cases h

theorem pathTree_ne_nil (path word : Bytes) (strings : List (Option Bytes)) :
    (pathTree path word strings : Stackish.Tree D) ≠ .nil := node_ne_nil _ _ _

/-- The response is logged and sent. -/
theorem respond_returns (hErrno : s.errno = 0) {t : Stackish.Tree D} (ht : t ≠ .nil) (type : Bytes) :
    Returns (Prints out.lib t) (dumpTree out.lib (consTree s.errno t) >>= fun _ =>
      sendResponse (consTree s.errno t) type >>= fun svc => pure (s, svc)) := by
  rw [consTree_clear hErrno]
  refine (Returns.dump (q := True) ht ?_).congr (and_iff_left trivial)
  exact .of_ok rfl trivial

theorem Valid.routeMembers_returns (hValid : s.Valid) (hRoot : 0 < s.routes.length) (hErrno : s.errno = 0)
    (hn : n ≠ .nil) : Returns (s.CallbackServed out n .routeMembers) (s.routeMembers out n) := by
  obtain ⟨k, hFind, hTarget⟩ := hValid.find_clear hRoot hErrno n
  rw [routeMembers, bind_of_ok hFind]
  apply Returns.print hn
  intro _
  cases k with
  | none =>
    rw [target_none hFind]
    apply (respond_returns hErrno (pathTree_ne_nil _ _ _) _).congr
    exact ⟨fun h => ⟨by simp, h⟩, fun h => h.2⟩
  | some r =>
    obtain ⟨route, hRoute, hSame⟩ := hTarget r rfl
    have hLive : s.MembersLive route ↔ ∀ route', some route = some route' → s.MembersLive route' :=
      ⟨fun h _ h' => Option.some.inj h' ▸ h, fun h => h route rfl⟩
    rw [hSame, ← hLive]
    dsimp only
    rw [bind_of_ok (route_eq hRoute)]
    rcases mapM_live (s := s) out.names route.members.members with ⟨hMembers, hRun⟩ | ⟨hMembers, hRun⟩
    · have hNames : route.members.members.mapM (s.memberName out) = .ok (memberStrings out (some route)) := hRun
      rw [bind_of_ok hNames]
      apply (respond_returns hErrno (pathTree_ne_nil _ _ _) _).congr
      exact ⟨fun h => ⟨hMembers, h⟩, fun h => h.2⟩
    · have hNames : route.members.members.mapM (s.memberName out) = .error .useAfterFree := hRun
      exact .of_error (bind_of_error hNames _) (by decide) fun h => hMembers h.1

theorem Valid.routeChildren_returns (hValid : s.Valid) (hRoot : 0 < s.routes.length) (hErrno : s.errno = 0)
    (hn : n ≠ .nil) : Returns (s.CallbackServed out n .routeChildren) (s.routeChildren out n) := by
  obtain ⟨k, hFind, hTarget⟩ := hValid.find_clear hRoot hErrno n
  rw [routeChildren, bind_of_ok hFind]
  apply Returns.print hn
  intro _
  cases k with
  | none =>
    rw [target_none hFind]
    exact respond_returns hErrno (pathTree_ne_nil _ _ _) _
  | some r =>
    obtain ⟨route, hRoute, hSame⟩ := hTarget r rfl
    rw [hSame]
    dsimp only
    rw [bind_of_ok (route_eq hRoute), bind_of_ok (hValid.mapM_names hRoute)]
    exact respond_returns hErrno (pathTree_ne_nil _ _ _) _

theorem infoReply_returns {operation : Bytes} {op : Bytes → Run Info} {name : Bytes} {p : Prop}
    (h : Answers p (op name)) : Returns p (s.infoReply (D := D) operation op name) := by
  rcases h with ⟨hp, ⟨data, error, errno⟩, hOp, hErrno, hData⟩ | ⟨hp, ⟨⟨data, error, errno⟩, hOp, hSend⟩ | hOp⟩
  · dsimp only at hErrno hData
    subst hErrno
    rw [infoReply, bind_of_ok hOp]
    cases error with
    | some error => exact .of_ok rfl hp
    | none =>
      cases data with
      | some data => exact .of_ok rfl hp
      | none => exact absurd rfl (hData rfl)
  · rw [infoReply, bind_of_ok hOp]
    by_cases hErrno : errno = 0
    · subst hErrno
      cases error with
      | some error => exact absurd ⟨rfl, by simp⟩ hSend
      | none =>
        cases data with
        | some data => exact absurd ⟨rfl, by simp⟩ hSend
        | none => exact .of_error rfl (by decide) hp
    · have hNull : ∀ t : Stackish.Tree D, consTree errno t = none := fun t => if_neg hErrno
      cases error with
      | some error =>
        dsimp only
        rw [hNull]
        exact .of_error rfl (by decide) hp
      | none =>
        cases data with
        | some data =>
          dsimp only
          rw [hNull]
          exact .of_error rfl (by decide) hp
        | none => exact .of_error rfl (by decide) hp
  · exact .of_error (bind_of_error hOp _) (by decide) hp

theorem infoGeneric_returns {operation : Bytes} {op : Bytes → Run Info} {clean : Bytes → Prop}
    (hErrno : s.errno = 0) (h : ∀ name, Answers (clean name) (op name)) :
    Returns (InfoServed out clean n) (s.infoGeneric out operation op n) := by
  rw [infoGeneric, if_pos (show s.passes true = true by simp [passes, hErrno])]
  cases n with
  | nil => exact .of_ok rfl trivial
  | node d first rest =>
    cases first with
    | nil => exact .of_ok rfl trivial
    | node data child sibling =>
      obtain ⟨cname, value⟩ := data
      -- a node that does not match is logged, and the request fails
      have hDumped : ∀ {t : Stackish.Tree D} {f : Option (Option Bytes) → Run (Routing Callback × Service D)},
          t ≠ .nil → f none = .ok (s.cleared, .failed) →
          Returns (Prints out.lib t) ((dumpTree out.lib (some t) >>= fun _ => pure none) >>= f) := by
        intro t f ht hf
        rw [bind_assoc]
        refine (Returns.dump (q := True) ht ?_).congr (and_iff_left trivial)
        exact .of_ok hf trivial
      cases value with
      | number | blob | float | group => exact hDumped (node_ne_nil _ _ _) rfl
      | string name =>
        by_cases hName : d.name.any (biseqcstr · (ascii "name")) = true
        · simp only [infoName, InfoServed, hName, if_true]
          cases name with
          | none => exact .of_ok rfl (by simp)
          | some name =>
            cases name with
            | nil => exact .of_ok rfl fun b hb hNe => absurd (Option.some.inj hb).symm hNe
            | cons c name =>
              apply (infoReply_returns (h (c :: name))).congr
              exact ⟨fun hClean b hb _ => Option.some.inj hb ▸ hClean, fun hClean => hClean _ rfl (by simp)⟩
        · simp only [infoName, InfoServed, hName, if_false, Bool.false_eq_true]
          exact hDumped (node_ne_nil _ _ _) rfl

theorem memberReply_returns {word : Bytes} {dumps : Bool} (hErrno : s.errno = 0) (hn : n ≠ .nil) :
    Returns (dumps = true → Prints out.lib n) (s.memberReply out word dumps n) := by
  rw [memberReply, consTree_clear hErrno]
  cases dumps with
  | false => exact .of_ok rfl (by simp)
  | true =>
    refine (Returns.dump (q := True) hn ?_).congr ?_
    · exact .of_ok rfl trivial
    · simp

theorem systemPing_returns (hErrno : s.errno = 0) : Returns True (s.systemPing out n) := by
  unfold systemPing
  split
  · rw [if_pos (show s.passes true = true by simp [passes, hErrno])]
    dsimp only
    rw [consTree_clear hErrno]
    exact .of_ok rfl trivial
  · exact .of_ok rfl trivial

theorem Valid.callback_returns (hLib : lib.Sound) (hValid : s.Valid) (hRoot : 0 < s.routes.length)
    (hErrno : s.errno = 0) (hn : n ≠ .nil) (hLive : s.Live sender) (cb : Callback) :
    Returns (s.CallbackServed out n cb) (s.callback lib place out sender n cb) := by
  cases cb with
  | routeRegister => exact (hValid.register_returns hLib hRoot hn hLive).bind fun a => ⟨_, rfl⟩
  | routeUnregister =>
    obtain ⟨routes, hLookup⟩ := hLive.lookup
    have hReturns : Returns True (s.unregister lib place n sender) :=
      .inl ⟨trivial, (hValid.unregister_spec hLib place hRoot hn hLookup).mono fun _ _ => trivial⟩
    exact hReturns.bind fun a => ⟨_, rfl⟩
  | routeMembers => exact hValid.routeMembers_returns hRoot hErrno hn
  | routeChildren => exact hValid.routeChildren_returns hRoot hErrno hn
  | memberRegister | memberMendicate => exact (memberReply_returns hErrno hn).congr (iff_of_true (by simp) trivial)
  | memberInvite | memberSend => exact (memberReply_returns hErrno hn).congr ⟨fun h => h rfl, fun h _ => h⟩
  | infoGet => exact infoGeneric_returns hErrno fun _ => Disk.infoGet_answers
  | infoList => exact infoGeneric_returns hErrno fun _ => Disk.infoList_answers
  | infoTag => exact infoGeneric_returns hErrno fun _ => Disk.infoTag_answers
  | systemPing => exact systemPing_returns hErrno

end Callbacks

/-! ## Messages -/

section Messages
variable {s' start : Routing Callback} {M : Set Nat} {P : Outside D → Stackish.Tree D → Prop}

theorem Valid.serve (hLib : lib.Sound) (hValid : s.Valid) (hRoot : 0 < s.routes.length) {act : HubAct D}
    (hAttends : s.Attends M P act) (hStep : s.serve lib place act = .ok s') :
    s'.Valid ∧ s.routes.length ≤ s'.routes.length := by
  rcases hValid.serve_simulated hRoot hAttends hStep with ⟨errno, rfl⟩ | ⟨onRoutes, t, errno, hReady, hOn, rfl⟩
  · exact ⟨hValid.withErrno errno, Nat.le_refl _⟩
  · obtain ⟨hValidT, hLe⟩ := (hValid.stepped hLib hRoot hReady hOn).valid hValid
    exact ⟨hValidT.withErrno errno, hLe⟩

theorem Served.valid (hLib : lib.Sound) (hStart : Started lib D start) (h : Served lib place M P start s) :
    s.Valid ∧ 0 < s.routes.length := by
  induction h with
  | start =>
    obtain ⟨hBare, -⟩ := hStart.bare hLib
    exact ⟨hBare.valid, hBare.root⟩
  | step _ hAttends hStep ih =>
    obtain ⟨hValid, hLe⟩ := ih.1.serve hLib ih.2 hAttends hStep
    exact ⟨hValid, Nat.lt_of_lt_of_le ih.2 hLe⟩

theorem Valid.serviceInternal_returns (hLib : lib.Sound) (hValid : s.Valid) (hRoot : 0 < s.routes.length)
    (hErrno : s.errno = 0) {sender : Nat} (hLive : s.Live sender) (data : Stackish.Tree D) (cb : Callback) :
    Returns (extractMessage data ≠ .nil → s.CallbackServed out (extractMessage data) cb)
      (s.serviceInternal lib place out sender data cb) := by
  unfold serviceInternal
  split
  · rename_i hNil
    exact .of_ok rfl fun hNe => absurd hNil hNe
  · rename_i hNe
    have hNe' : extractMessage data ≠ .nil := hNe
    refine Returns.congr ?_ (imp_iff_right hNe').symm
    apply (hValid.callback_returns hLib hRoot hErrno hNe' hLive cb).bind
    rintro ⟨u, svc⟩
    dsimp only
    split
    · exact ⟨_, rfl⟩
    · exact ⟨_, rfl⟩

/-- A message is served, but for want of memory, exactly if it is serviceable. -/
theorem serviceMessage_returns_iff (hLib : lib.Sound) (hStart : Started lib D start)
    (hRun : Served lib place M P start s) (out : Outside D) {sender : Nat} (hLive : s.Live sender)
    (body : Stackish.Tree D) :
    (Barring {noMemory} (s.serviceMessage lib place out sender body) fun _ => True) ↔ s.Serviceable out body := by
  obtain ⟨hValid, hRoot⟩ := hRun.valid hLib hStart
  apply Returns.iff
  rw [serviceMessage]
  by_cases hErrno : out.errno = 0
  · obtain ⟨k, hFind, hTarget⟩ := (hValid.withErrno 0).find_clear hRoot rfl (children body)
    rw [hErrno, bind_of_ok hFind]
    cases k with
    | none => exact .of_ok rfl fun _ route h => by rw [target_none hFind] at h; cases h
    | some r =>
      obtain ⟨route, hRoute, hSame⟩ := hTarget r rfl
      dsimp only
      rw [if_pos (show (s.withErrno 0).passes true = true from rfl), bind_of_ok (route_eq hRoute)]
      have hIff : s.Serviceable out body ↔ s.RouteServed out body route := by
        constructor
        · exact fun h => h hErrno route hSame
        · intro h _ route' hSame'
          rw [hSame] at hSame'
          cases hSame'
          exact h
      refine Returns.congr ?_ hIff.symm
      rw [RouteServed]
      cases route.callback with
      | some cb => exact (hValid.withErrno 0).serviceInternal_returns hLib hRoot rfl hLive (children body) cb
      | none =>
        rcases mapM_live (s := s.withErrno 0) (fun m => (⟨out.owner m, 0⟩ : Delivery)) route.members.members with
          ⟨hMembers, hDeliver⟩ | ⟨hMembers, hDeliver⟩
        · exact .of_ok (bind_of_ok hDeliver _) hMembers
        · exact .of_error (bind_of_error hDeliver _) (by decide) hMembers
  · have hServed : s.Serviceable out body := fun h => absurd h hErrno
    obtain ⟨u, k, hFind, -, hFound⟩ := (hValid.withErrno out.errno).find_ok hRoot (children body)
    rw [bind_of_ok hFind]
    cases k with
    | none => exact .of_ok rfl hServed
    | some r =>
      obtain ⟨rfl, -⟩ := hFound r rfl
      dsimp only
      rw [if_neg (show ¬(s.withErrno out.errno).passes true = true by simp [passes, withErrno, hErrno])]
      exact .of_ok rfl hServed

/-- The registration of the services is a run of the routing tree. -/
theorem Reachable.commandsRegister {regs : List Registration} (h : Reachable lib place D M s) (hErrno : s.errno = 0)
    (hCall : s.commandsRegister lib D regs = .ok (s', true)) : Reachable lib place D M s' := by
  induction regs generalizing s with
  | nil =>
    cases hCall
    exact h
  | cons reg rest ih =>
    rw [Routing.commandsRegister, if_pos (show s.passes true = true by simp [passes, hErrno])] at hCall
    obtain ⟨⟨t, b⟩, hFirst, hCall⟩ := bind_eq_ok_iff.mp hCall
    dsimp only at hCall
    split at hCall
    swap
    · cases hCall
    rename_i hPasses
    have hReady : s.Ready M (.service 0 (reg.node : Stackish.Tree D) reg.callback) := trivial
    have hStep : s.step lib place (.service 0 (reg.node : Stackish.Tree D) reg.callback) = .ok t := by
      have hSame : s.withErrno 0 = s := by rw [withErrno, ← hErrno]
      rw [Routing.step, hSame, bind_of_ok hFirst]
      rfl
    exact ih (h.step hReady hStep) (beq_iff_eq.mp (Bool.and_eq_true_iff.mp hPasses).2) hCall

/-- With addresses in order the members of all routes are logged in. -/
theorem Served.consistent (hLib : lib.Sound) (hM : Orders voidPtrCompare M) (hStart : Started lib D start)
    (h : Served lib place M P start s) (hPlace : Places place s) : Consistent place M s := by
  induction h with
  | start =>
    obtain ⟨root, hRoot, hCall⟩ := hStart
    have hReach : Reachable lib place D M root := .root hRoot
    exact (hReach.commandsRegister (createRoot_valid hRoot).2.2.2 hCall).consistent hLib hM hPlace
  | step hServed hAttends hStep ih =>
    obtain ⟨hValid, hRoot⟩ := hServed.valid hLib hStart
    have hOld := ih (hPlace.mono (hValid.serve hLib hRoot hAttends hStep).2)
    rcases hValid.serve_simulated hRoot hAttends hStep with ⟨errno, rfl⟩ | ⟨onRoutes, t, errno, hReady, hOn, rfl⟩
    · exact hOld.withErrno errno
    · have hPlaceT : Places place t := hPlace
      exact (hOld.stepped hValid hM hReady (hValid.stepped hLib hRoot hReady hOn) hPlaceT).withErrno errno

theorem Consistent.membersLive (h : Consistent place M s) {r : Nat} {route : Route Callback}
    (hRoute : s.routes[r]? = some route) : s.MembersLive route := by
  intro m hm
  have hCount : 0 < (s.linksOf m).count r := by
    rw [← h.linked, membersOf_eq hRoute, Multiset.coe_count]
    exact List.count_pos_iff.mpr hm
  by_contra hDead
  rw [linksOf, Option.not_isSome_iff_eq_none.mp hDead] at hCount
  exact absurd hCount (Nat.lt_irrefl 0)

/-- A message that names an ordinary route goes to the members of that route, who are all logged in. -/
theorem routed_to_members (hLib : lib.Sound) (hM : Orders voidPtrCompare M) (hStart : Started lib D start)
    (hRun : Served lib place M P start s) (hPlace : Places place s) {out : Outside D} (hErrno : out.errno = 0)
    (sender : Nat) {body : Stackish.Tree D} {route : Route Callback}
    (hTarget : (s.withErrno 0).target (children body) = some route) (hOrdinary : route.callback = none) :
    s.MembersLive route ∧ s.serviceMessage lib place out sender body =
      .ok (s.withErrno 0, .routed (route.members.members.map fun m => ⟨out.owner m, 0⟩)) := by
  obtain ⟨hValid, hRoot⟩ := hRun.valid hLib hStart
  obtain ⟨k, hFind, hFound⟩ := (hValid.withErrno 0).find_clear hRoot rfl (children body)
  cases k with
  | none =>
    rw [target_none hFind] at hTarget
    cases hTarget
  | some r =>
    obtain ⟨route', hRoute, hSame⟩ := hFound r rfl
    obtain rfl : route = route' := Option.some.inj (hTarget.symm.trans hSame)
    have hMembers : s.MembersLive route := (hRun.consistent hLib hM hStart hPlace).membersLive hRoute
    refine ⟨hMembers, ?_⟩
    rw [serviceMessage, hErrno, bind_of_ok hFind]
    dsimp only
    rw [if_pos (show (s.withErrno 0).passes true = true from rfl), bind_of_ok (route_eq hRoute), hOrdinary]
    rcases mapM_live (s := s.withErrno 0) (fun m => (⟨out.owner m, 0⟩ : Delivery)) route.members.members with
      ⟨-, hDeliver⟩ | ⟨hNot, -⟩
    · exact bind_of_ok hDeliver _
    · exact absurd hMembers hNot

end Messages

/-! ## Three messages -/

/-- `[ [ [ 5 ping system req ` -/
def ping : Stackish.Tree Unit :=
  groupNamed "req" (groupNamed "system" (groupNamed "ping" (.node ⟨none, .number 5⟩ .nil .nil)))

/-- `[ [ [ 5 register route req `: a number to be registered as a route -/
def nameless : Stackish.Tree Unit :=
  groupNamed "req" (groupNamed "route" (groupNamed "register" (.node ⟨none, .number 5⟩ .nil .nil)))

/-- `[ [ [ [ "f" name get info req ` -/
def getFile : Stackish.Tree Unit :=
  groupNamed "req" (groupNamed "info" (groupNamed "get" (groupNamed "name"
    (.node ⟨none, .string (some (ascii "f"))⟩ .nil .nil))))

/-- There is a file, and an error when it is closed. -/
def failingClose : Outside Unit :=
  { nothingOutside with
    disk := { nothingOutside.disk with
      fopen := fun _ => (true, 0)
      fread := fun _ => (some [], 0)
      fclose := fun _ => 5 } }

def faultOf {α : Type} : Run α → Option Fault
  | .ok _ => none
  | .error e => some e

theorem faultOf_eq {α : Type} {x : Run α} {e : Fault} (h : faultOf x = some e) : x = .error e := by
  cases x with
  | ok a => cases h
  | error e' =>
    cases h
    rfl

/-- `[ [ [ [ chat register route req ` -/
def joining : Stackish.Tree Unit :=
  groupNamed "req" (groupNamed "route" (groupNamed "register" (groupNamed "chat" .nil)))

/-- `[ [ chat req ` -/
def chatting : Stackish.Tree Unit := groupNamed "req" (groupNamed "chat" .nil)

theorem routed_to_members_joined :
    ∃ start s, Started plainLib Unit start ∧ Served plainLib id {1} (fun _ body => body = joining) start s ∧
      s.serviceMessage plainLib id nothingOutside 1 chatting = .ok (s.withErrno 0, .routed [⟨1, 0⟩]) := by
  obtain ⟨start, hHub, hStart, -, hLive⟩ := exists_served
  have hJoined : startedHub.toOption.bind (fun u =>
      ((u.1.login 1).serve plainLib id (.message nothingOutside 1 joining)).toOption.map fun s =>
        (decide (u.1.Live 1), s.routes.length, ((s.withErrno 0).target (children chatting)).map fun r =>
          (r.callback.isSome, r.members.members))) = some (false, 18, some (false, [1])) := by decide +kernel
  rw [hHub] at hJoined
  obtain ⟨s, hServe, hs⟩ := Option.map_eq_some_iff.mp hJoined
  simp only [Prod.mk.injEq, decide_eq_false_iff_not, Option.map_eq_some_iff, Option.isSome_eq_false_iff,
    Option.isNone_iff_eq_none] at hs
  obtain ⟨hNew, hLength, route, hTarget, hOrdinary, hMembers⟩ := hs
  have hLogin : start.Attends {1} (fun _ body => body = joining) (.login 1 : HubAct Unit) := ⟨rfl, hNew⟩
  have hJoin : (start.login 1).Attends {1} (fun _ body => body = joining) (.message nothingOutside 1 joining) :=
    ⟨hLive, rfl⟩
  have hServed : Served plainLib id {1} (fun _ body => body = joining) start s := by
    refine .step (.step .start hLogin rfl) hJoin ?_
    revert hServe
    cases (start.login 1).serve plainLib id (.message nothingOutside 1 joining) <;> simp [Except.toOption]
  have hM : Orders voidPtrCompare {1} := by
    apply voidPtrCompare_orders 0
    rintro x rfl
    decide
  have hPlace : Places id s := by
    apply voidPtrCompare_orders 0
    intro r hr
    have hLt : r < 18 := hLength ▸ hr
    omega
  have hErrno : nothingOutside.errno = 0 := rfl
  have hRouted := (routed_to_members plainLib_sound hM hStart hServed hPlace hErrno 1 hTarget hOrdinary).2
  rw [hMembers] at hRouted
  exact ⟨start, s, hStart, hServed, hRouted⟩

theorem serviceMessage_returns_ping :
    ∃ start, Started plainLib Unit start ∧ (start.login 1).Live 1 ∧
      Barring {noMemory} ((start.login 1).serviceMessage plainLib id nothingOutside 1 ping) fun _ => True := by
  obtain ⟨start, hHub, hStart, hRun, hLive⟩ := exists_served
  have hTarget : startedHub.toOption.map (fun u => (((u.1.login 1).withErrno 0).target (children ping)).map
      Route.callback) = some (some (some .systemPing)) := by decide +kernel
  rw [hHub] at hTarget
  refine ⟨start, hStart, hLive, ?_⟩
  refine (serviceMessage_returns_iff plainLib_sound hStart hRun nothingOutside hLive ping).mpr ?_
  intro _ route hRoute
  have hCallback := Option.some.inj hTarget
  dsimp only at hCallback
  rw [hRoute] at hCallback
  rw [RouteServed, Option.some.inj hCallback]
  exact fun _ => trivial

theorem leaf_plain {value : Value Unit} (hValue : value = .number 5 ∨ value = .string (some (ascii "f"))) :
    Shaped (.node ⟨none, value⟩ .nil .nil : Stackish.Tree Unit) ∧
      FloatFree (.node ⟨none, value⟩ .nil .nil : Stackish.Tree Unit) ∧
      Plain (.node ⟨none, value⟩ .nil .nil : Stackish.Tree Unit) := by
  rcases hValue with rfl | rfl
  · exact ⟨⟨leafName_none, fun _ => rfl, trivial, trivial⟩, ⟨rfl, trivial, trivial⟩, rfl, trivial, trivial⟩
  · exact ⟨⟨⟨leafName_none, _, rfl, by decide⟩, fun _ => rfl, trivial, trivial⟩, ⟨rfl, trivial, trivial⟩,
      rfl, trivial, trivial⟩

/-- A number cannot be registered, and a file that cannot be closed cannot be sent: the hub stops. -/
theorem serviceMessage_stops :
    ∃ start, Started plainLib Unit start ∧
      Served plainLib id {1} (FromWire (D := Unit)) start (start.login 1) ∧ (start.login 1).Live 1 ∧
      FromWire nothingOutside nameless ∧ FromWire failingClose getFile ∧
      (start.login 1).serviceMessage plainLib id nothingOutside 1 nameless = .error noName ∧
      (start.login 1).serviceMessage plainLib id failingClose 1 getFile =
        .error (.assertFailed "data cannot be NULL") := by
  obtain ⟨start, hHub, hStart, hRun, hLive⟩ := exists_served
  have hName : rootName (some (ascii "req")) := by
    rintro n ⟨⟩
    decide
  have hNumber := groupNamed_plain "route" (by decide)
    (groupNamed_plain "register" (by decide) (leaf_plain (.inl rfl)))
  have hString := groupNamed_plain "info" (by decide) (groupNamed_plain "get" (by decide)
    (groupNamed_plain "name" (by decide) (leaf_plain (.inr rfl))))
  refine ⟨start, hStart, hRun, hLive, ?_, ?_, ?_, ?_⟩
  · exact fromWire_of_plain hName hNumber.1 hNumber.2.1 (groupNamed_plain "req" (by decide) hNumber).2.2 (by decide)
  · exact fromWire_of_plain hName hString.1 hString.2.1 (groupNamed_plain "req" (by decide) hString).2.2 (by decide)
  · have hStop : startedHub.toOption.map (fun u => faultOf ((u.1.login 1).serviceMessage plainLib id nothingOutside 1
        nameless)) = some (some noName) := by decide +kernel
    rw [hHub] at hStop
    exact faultOf_eq (Option.some.inj hStop)
  · have hStop : startedHub.toOption.map (fun u => faultOf ((u.1.login 1).serviceMessage plainLib id failingClose 1
        getFile)) = some (some (.assertFailed "data cannot be NULL")) := by decide +kernel
    rw [hHub] at hStop
    exact faultOf_eq (Option.some.inj hStop)

end Routing

end Utu.Hub
