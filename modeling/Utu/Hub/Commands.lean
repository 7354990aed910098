import Utu.Hub.Links
import Utu.Hub.Hub
import Utu.Hub.Info
import Utu.Stackish.Print

/-!
# The services of the hub

`Hub_service_message` looks the message up in the routing tree. An internal
route has a callback, which gets the first grandchild of the message data,
whatever that is; any other route delivers the message to its members. What a
callback does to the tree is followed here, and what comes of it for the
connections is a `Service`. The calls of the C library leave `errno` alone, but
for those of `info.c`.
-/

namespace Utu.Hub
open Outcome LinkedForest Stackish
set_option autoImplicit false

/-- The functions `Hub_..._cb` -/
inductive Callback where
  | routeRegister
  | routeUnregister
  | routeMembers
  | routeChildren
  | memberRegister
  | memberMendicate
  | memberInvite
  | memberSend
  | infoGet
  | infoList
  | infoTag
  | systemPing
deriving DecidableEq, Repr

structure Registration where
  child : Bytes
  root : Bytes
  callback : Callback
deriving DecidableEq, Repr

def registrations : List Registration :=
  [⟨ascii "register", ascii "route", .routeRegister⟩,
    ⟨ascii "unregister", ascii "route", .routeUnregister⟩,
    ⟨ascii "members", ascii "route", .routeMembers⟩,
    ⟨ascii "children", ascii "route", .routeChildren⟩,
    ⟨ascii "register", ascii "member", .memberRegister⟩,
    ⟨ascii "mendicate", ascii "member", .memberMendicate⟩,
    ⟨ascii "invite", ascii "member", .memberInvite⟩,
    ⟨ascii "send", ascii "member", .memberSend⟩,
    ⟨ascii "get", ascii "info", .infoGet⟩,
    ⟨ascii "list", ascii "info", .infoList⟩,
    ⟨ascii "tag", ascii "info", .infoTag⟩,
    ⟨ascii "ping", ascii "system", .systemPing⟩]

variable {D : Type}

/-- `Node_cons("[[ww", reg->child, reg->root)` -/
def Registration.node (reg : Registration) : Stackish.Tree D :=
  .node ⟨some reg.root, .group⟩ (.node ⟨some reg.child, .group⟩ .nil .nil) .nil

/-- The answers from outside to one message: the `errno` it finds, the time, the file system, and the
connections of the members with their `them.name`. -/
structure Outside (D : Type) where
  lib : DoubleLib D
  errno : Nat
  now : UInt64
  disk : Disk
  owner : Nat → Nat
  names : Nat → Option Bytes

/-- `Node_cons` of a whole format: the tree, or NULL if one of its checks finds `errno` set. -/
def consTree (errno : Nat) (t : Stackish.Tree D) : Option (Stackish.Tree D) := if errno = 0 then some t else none

/-- `send_response` -/
def sendResponse (response : Option (Stackish.Tree D)) (type : Bytes) : Run (Service D) :=
  match response with
  | none => throw (.assertFailed "data cannot be NULL")
  | some t => pure (.callback (some (.node ⟨some type, .group⟩ t .nil)) 0)

/-- `Node_dump` -/
def dumpTree (lib : DoubleLib D) (t : Option (Stackish.Tree D)) : Run Unit := do
  let _ ← bstrTree lib (t.getD .nil)
  pure ()

namespace Routing

section Register
variable (lib : HeapLib)

/-- `Hub_commands_register` -/
def commandsRegister (D : Type) : List Registration → Routing Callback → Run (Routing Callback × Bool)
  | [], s => pure (s, true)
  | reg :: rest, s =>
    if s.passes true then do
      let (s, registered) ← s.registerCallback lib (reg.node : Stackish.Tree D) reg.callback
      if s.passes registered then commandsRegister D rest s else pure (s.cleared, false)
    else pure (s.cleared, false)

end Register

section Serve
variable (lib : HeapLib) (place : Nat → Nat) (out : Outside D) (s : Routing Callback)

/-- The name of a member is read. -/
def memberName (m : Nat) : Run (Option Bytes) := do
  let _ ← s.routesOf m
  pure (out.names m)

/-- The strings that `Node_new_string` puts in front of the children of a response, one by one -/
def stringsTree (strings : List (Option Bytes)) (children : Stackish.Tree D) : Stackish.Tree D :=
  strings.foldl (fun rest b => .node ⟨none, .string b⟩ .nil rest) children

/-- `Node_cons("[b@w", path, "@path", word)` with the strings that are added to it -/
def pathTree (path : Bytes) (word : Bytes) (strings : List (Option Bytes)) : Stackish.Tree D :=
  .node ⟨some word, .group⟩
    (stringsTree strings (.node ⟨some (ascii "@path"), .blob (some path)⟩ .nil .nil)) .nil

/-- `Hub_route_members_cb` -/
def routeMembers (message : Stackish.Tree D) : Run (Routing Callback × Service D) := do
  let (s, target) ← s.find message
  let path ← bstrTree out.lib message
  let strings ← (match target with
    | some r => do
      let route ← s.route r
      route.members.members.mapM (s.memberName out)
    | none => pure [some (ascii "Requested route does not exist.")])
  let response := consTree s.errno (pathTree path (ascii "members") strings)
  dumpTree out.lib response
  let svc ← sendResponse response (if target.isSome then ascii "rpy" else ascii "err")
  pure (s, svc)

/-- `Hub_route_children_cb` -/
def routeChildren (message : Stackish.Tree D) : Run (Routing Callback × Service D) := do
  let (s, target) ← s.find message
  let path ← bstrTree out.lib message
  let strings ← (match target with
    | some r => do
      let route ← s.route r
      route.children.members.mapM fun c => do
        let child ← s.route c
        pure (some child.name)
    | none => pure [])
  let response := consTree s.errno (pathTree path (ascii "children") strings)
  dumpTree out.lib response
  let svc ← sendResponse response (ascii "rpy")
  pure (s, svc)

/-- The callbacks that answer with a word, and some of them log the message before -/
def memberReply (word : Bytes) (dumps : Bool) (message : Stackish.Tree D) : Run (Routing Callback × Service D) := do
  let response := consTree s.errno (.node ⟨some word, .group⟩ .nil .nil)
  let _ ← (if dumps then dumpTree out.lib (some message) else pure ())
  let svc ← sendResponse response (ascii "rpy")
  pure (s, svc)

/-- `Hub_system_ping_cb` -/
def systemPing (message : Stackish.Tree D) : Run (Routing Callback × Service D) :=
  match message with
  | .node ⟨_, .number n⟩ _ _ =>
    if s.passes true then do
      let pong := .node ⟨some (ascii "pong"), .group⟩ (.node ⟨none, .number (out.now - n)⟩ .nil .nil) .nil
      let svc ← sendResponse (consTree s.errno pong) (ascii "rpy")
      pure (s, svc)
    else pure (s.cleared, .failed)
  | _ => pure (s.cleared, .failed)

/-- `Node_decons(message, 0, "[sw", &info_name, "name")`: what stands in `info_name`, unless it fails -/
def infoName (message : Stackish.Tree D) : Run (Option (Option Bytes)) :=
  match message with
  | .node d (.node c child sibling) rest =>
    match c.value with
    | .string name =>
      if d.name.any (biseqcstr · (ascii "name")) then pure (some name)
      else do
        dumpTree out.lib (some (.node d (.node c child sibling) rest))
        pure none
    | _ => do
      dumpTree out.lib (some (.node c child .nil))
      pure none
  | _ => pure none

/-- `Node_cons("[[sw[bww", name, "name", data, operation, "info")`, and with an error in its place -/
def infoTree (name : Bytes) (value : Value D) (word : Bytes) : Stackish.Tree D :=
  .node ⟨some (ascii "info"), .group⟩
    (.node ⟨some word, .group⟩ (.node ⟨none, value⟩ .nil .nil)
      (.node ⟨some (ascii "name"), .group⟩ (.node ⟨none, .string (some name)⟩ .nil .nil) .nil)) .nil

/-- `Hub_info_generic` behind its checks -/
def infoReply (operation : Bytes) (op : Bytes → Run Info) (name : Bytes) : Run (Routing Callback × Service D) := do
  let info ← op name
  let (response, type) ← (match info.error with
    | none =>
      match info.data with
      | none => throw (.assertFailed "data && \"Invalid response from info, data can't be NULL.\"")
      | some data => pure (consTree info.errno (infoTree name (.blob (some data)) operation), ascii "rpy")
    | some error =>
      pure (consTree info.errno (infoTree name (.string (some error)) (ascii "error")), ascii "err"))
  let svc ← sendResponse response type
  pure (s, svc)

/-- `Hub_info_generic` -/
def infoGeneric (operation : Bytes) (op : Bytes → Run Info) (message : Stackish.Tree D) :
    Run (Routing Callback × Service D) :=
  if s.passes true then do
    match ← infoName out message with
    | some (some name) => if 0 < name.length then s.infoReply operation op name else pure (s.cleared, .failed)
    | _ => pure (s.cleared, .failed)
  else pure (s.cleared, .failed)

/-- The callback of an internal route -/
def callback (sender : Nat) (message : Stackish.Tree D) : Callback → Run (Routing Callback × Service D)
  | .routeRegister => do
    let (s, registered) ← s.register lib place message sender
    pure (s, if registered then .callback none 0 else .failed)
  | .routeUnregister => do
    let (s, found) ← s.unregister lib place message sender
    pure (s, if found then .callback none 0 else .failed)
  | .routeMembers => s.routeMembers out message
  | .routeChildren => s.routeChildren out message
  | .memberRegister => s.memberReply out (ascii "registered") false message
  | .memberMendicate => s.memberReply out (ascii "mendicated") false message
  | .memberInvite => s.memberReply out (ascii "invited") true message
  | .memberSend => s.memberReply out (ascii "sent") true message
  | .infoGet => s.infoGeneric out (ascii "get") out.disk.infoGet message
  | .infoList => s.infoGeneric out (ascii "list") out.disk.infoList message
  | .infoTag => s.infoGeneric out (ascii "tag") out.disk.infoTag message
  | .systemPing => s.systemPing out message

/-- `extract_message` -/
def extractMessage (data : Stackish.Tree D) : Stackish.Tree D := children (children data)

/-- The internal branch of `Hub_service_message` -/
def serviceInternal (sender : Nat) (data : Stackish.Tree D) (cb : Callback) : Run (Routing Callback × Service D) :=
  match extractMessage data with
  | .nil => pure (s.cleared, .failed)
  | message => do
    let (s, svc) ← s.callback lib place out sender message cb
    if s.passes svc.works then pure (s, svc) else pure (s.cleared, .failed)

/-- `Route_deliver` reads every member that it delivers to. -/
def serviceRouted (members : List Nat) : Run (Routing Callback × Service D) := do
  let deliveries ← members.mapM fun m => do
    let _ ← s.routesOf m
    pure (⟨out.owner m, s.errno⟩ : Delivery)
  pure (s, .routed deliveries)

/-- `Hub_service_message`, for a message from `sender` with this body -/
def serviceMessage (sender : Nat) (body : Stackish.Tree D) : Run (Routing Callback × Service D) := do
  let (s, target) ← (s.withErrno out.errno).find (children body)
  match target with
  | none => pure (s.cleared, .failed)
  | some r =>
    if s.passes true then do
      let route ← s.route r
      match route.callback with
      | some cb => s.serviceInternal lib place out sender (children body) cb
      | none => s.serviceRouted out route.members.members
    else pure (s.cleared, .failed)

end Serve

end Routing

/-! ## Runs -/

/-- What happens to the routes once the hub listens: a member comes, sends a message, or goes. -/
inductive HubAct (D : Type) where
  | login (m : Nat)
  | message (out : Outside D) (sender : Nat) (body : Stackish.Tree D)
  | close (m : Nat)

namespace Routing
variable (lib : HeapLib) (place : Nat → Nat)

def serve (s : Routing Callback) : HubAct D → Run (Routing Callback)
  | .login m => s.step lib place (.login m : RouteAct Callback D)
  | .message out sender body => do
    let (s, _) ← s.serviceMessage lib place out sender body
    pure s
  | .close m => s.step lib place (.close m : RouteAct Callback D)

/-- Only members send messages, and those with a body in `P`. -/
def Attends (M : Set Nat) (P : Outside D → Stackish.Tree D → Prop) (s : Routing Callback) : HubAct D → Prop
  | .login m => s.Ready M (.login m : RouteAct Callback D)
  | .message out sender body => s.Live sender ∧ P out body
  | .close m => s.Ready M (.close m : RouteAct Callback D)

/-- `Hub_create`, with the services in their places -/
def Started (D : Type) (s : Routing Callback) : Prop :=
  ∃ root, createRoot (some (ascii "root")) = .ok root ∧
    commandsRegister lib D registrations root = .ok (s, true)

/-- The trees that some run of messages leads to. -/
inductive Served (M : Set Nat) (P : Outside D → Stackish.Tree D → Prop) (start : Routing Callback) :
    Routing Callback → Prop
  | start : Served M P start start
  | step {s s' : Routing Callback} {act : HubAct D} : Served M P start s → s.Attends M P act →
      s.serve lib place act = .ok s' → Served M P start s'

end Routing

end Utu.Hub
