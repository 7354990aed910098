import Utu.Lib.Ledger
import Utu.Hub.Connection

/-!
# The hub

All connections, each at the address of its `ConnectionState`, the list of
closed ones that new clients take them from, and the reference counts of the
messages. A step runs one task of one connection up to its next yield, with
what it does outside of it.
-/

namespace Utu.Hub
open Ledger
set_option autoImplicit false
set_option linter.dupNamespace false

variable {D : Type}

/-- `short ref_count` -/
def refBits : Nat := 16

/-- A member of a route, and the `errno` that the delivery to it finds. -/
structure Delivery where
  member : Nat
  errno : Nat
deriving DecidableEq, Repr

/-- What `Hub_service_message` comes to: it fails, or the callback of an internal route works, and
may have built the body of a response, or the message goes to the members of its route. -/
inductive Service (D : Type) where
  | failed
  | callback (response : Option (Stackish.Tree D)) (errno : Nat)
  | routed (members : List Delivery)
deriving DecidableEq, Repr

/-- `Hub_service_message` returns 1. -/
def Service.works : Service D → Bool
  | .failed => false
  | _ => true

/-- `Hub`. Besides, whether a state was handed out while a task still ran on it, the calls of
`Hub_exec(hub, UEv_CLOSE)` with the front of the list that each found, and the states that were
handed out a second time, as they were before. -/
structure Hub (D : Type) where
  conns : List (Connection D)
  closed : List Nat
  refs : Counters
  fault : Option Fault
  reused : Bool
  closes : List (Nat × Option Nat)
  handouts : List (Connection D)
deriving DecidableEq, Repr

namespace Hub

/-- The hub listens. -/
def listening : Hub D := ⟨[], [], .empty, none, false, [], []⟩

def crash (h : Hub D) (f : Fault) : Hub D := { h with fault := some f }

def fail (h : Hub D) : Option Fault → Hub D
  | some f => h.crash f
  | none => h

/-- The process goes on. A task that runs on a state which is not its own any more is not followed. -/
def running (h : Hub D) : Bool := h.fault.isNone && h.refs.misuse.isNone && !h.reused

/-! ## Messages -/

def retain (h : Hub D) (m : Message D) : Hub D := { h with refs := h.refs.retain refBits m.ref }

/-- `Message_destroy` -/
def release (h : Hub D) (m : Message D) : Hub D := { h with refs := h.refs.release refBits m.ref }

/-- `Member_send_msg` -/
def sendMsg (h : Hub D) (a : Nat) (m : Message D) (errno : Nat) : Hub D × Bool :=
  match h.conns[a]? with
  | none => (h.crash .useAfterFree, false)
  | some c =>
    match c.member with
    | none => (h.crash .useAfterFree, false)
    | some q =>
      if q.isFull || errno ≠ 0 then (h, false)
      else (retain { h with conns := h.conns.set a (c.deliver m) } m, true)

/-- `Route_deliver`: the first delivery that fails ends it. -/
def routeDeliver (m : Message D) : List Delivery → Hub D → Hub D
  | [], h => h
  | d :: rest, h =>
    match h.sendMsg d.member m d.errno with
    | (h, true) => routeDeliver m rest h
    | (h, false) => h

/-- `send_response` -/
def sendResponse (h : Hub D) (a : Nat) (body : Stackish.Tree D) (errno : Nat) : Hub D :=
  (sendMsg { h with refs := h.refs.alloc } a ⟨h.refs.next, 0, body⟩ errno).1

/-- `Hub_service_message`, for a message of the connection `a` -/
def serviceMessage (h : Hub D) (a : Nat) (m : Message D) : Service D → Hub D
  | .failed => h
  | .callback none _ => h
  | .callback (some body) errno => h.sendResponse a body errno
  | .routed members => routeDeliver m members h

/-! ## The list of closed connections -/

/-- `ConnectionState_rest_close` -/
def restClose (h : Hub D) (a : Nat) : Hub D :=
  if h.closed.head? = some a then h else { h with closed := a :: h.closed }

/-- `ConnectionState_finish` -/
def finish (h : Hub D) (a : Nat) : Hub D :=
  match h.conns[a]? with
  | none => h.crash .useAfterFree
  | some c =>
    (c.recvMsg.toList ++ c.sendMsg.toList).foldl release { h with conns := h.conns.set a c.finish }

/-- Action `close` of the hub, for the handler of the connection `a` -/
def close (h : Hub D) (a : Nat) : Hub D :=
  let h := { h with closes := h.closes ++ [(a, h.closed.head?)] }
  match h.closed with
  | [] => h.crash (.assertFailed "state->closed cannot be NULL")
  | b :: _ => h.finish b

/-- `Hub_new_or_reuse_conn`, with the address of the state -/
def newOrReuseConn (h : Hub D) : Hub D × Nat :=
  match h.closed with
  | [] => ({ h with conns := h.conns ++ [.opened] }, h.conns.length)
  | b :: rest =>
    match h.conns[b]? with
    | none => (h.crash .useAfterFree, b)
    | some c =>
      ({ h with
          closed := rest
          conns := h.conns.set b .opened
          handouts := h.handouts ++ [c]
          reused := h.reused || c.incoming ≠ .finished ||
            (c.outgoing ≠ .absent && c.outgoing ≠ .ended) }, b)

/-! ## Runs -/

/-- What a step of the connection `a` does outside of it. The routes are not followed: what they
hold is asked for with each service. -/
def effect (a : Nat) (svc : Service D) (h : Hub D) (fx : Effect D) : Hub D :=
  if h.running then
    match fx with
    | .alloc _ => { h with refs := h.refs.alloc }
    | .retain m => h.retain m
    | .release m => h.release m
    | .service m => h.serviceMessage a m svc
    | .unregisterAll => h
    | .push => h.restClose a
    | .hubClose => h.close a
  else h

/-- The connection `a` goes from `c` to `c'`. -/
def run (h : Hub D) (a : Nat) (c c' : Connection D) (svc : Service D) : Hub D :=
  fail ((c'.effects.drop c.effects.length).foldl (effect a svc) { h with conns := h.conns.set a c' }) c'.fault

/-- What can happen between two yields: a client comes in, or a task of a connection runs. -/
inductive Act (D : Type) where
  | accept (io : Io D)
  | incoming (a : Nat) (io : Io D) (svc : Service D)
  | outgoing (a : Nat) (io : Io D)
deriving DecidableEq, Repr

/-- A message that is made in a step gets the next number. -/
def answers (h : Hub D) (io : Io D) (svc : Service D) : Io D :=
  { io with ref := h.refs.next, service := svc.works }

def Ready (h : Hub D) : Act D → Prop
  | .accept _ => True
  | .incoming a io svc => ∃ c ∈ h.conns[a]?, c.Ready (.incoming (h.answers io svc))
  | .outgoing a io => ∃ c ∈ h.conns[a]?, c.Ready (.outgoing io)

instance (h : Hub D) (act : Act D) : Decidable (h.Ready act) := by
  unfold Ready
  split <;> infer_instance

/-- `Hub_connection_handler` up to the first yield of its connection -/
def accept (h : Hub D) (io : Io D) : Hub D :=
  match h.newOrReuseConn with
  | (h, a) =>
    if h.running then h.run a .opened (Connection.opened.step (.incoming (h.answers io .failed))) .failed
    else h

def step (h : Hub D) : Act D → Hub D
  | .accept io => h.accept io
  | .incoming a io svc =>
    match h.conns[a]? with
    | some c => h.run a c (c.step (.incoming (h.answers io svc))) svc
    | none => h
  | .outgoing a io =>
    match h.conns[a]? with
    | some c => h.run a c (c.step (.outgoing io)) .failed
    | none => h

/-- One step, of the kind that `P` allows. -/
def Step (P : Hub D → Act D → Prop) (h h' : Hub D) : Prop :=
  h.running = true ∧ ∃ act, h.Ready act ∧ P h act ∧ h' = h.step act

/-- The hubs that some run with steps of this kind leads to. -/
def Reachable (P : Hub D → Act D → Prop) (h : Hub D) : Prop :=
  Relation.ReflTransGen (Step P) listening h

/-- The acts can happen in this order, each of the kind that `P` allows. -/
def Allowed (P : Hub D → Act D → Prop) (h : Hub D) : List (Act D) → Prop
  | [] => True
  | act :: acts => h.running = true ∧ h.Ready act ∧ P h act ∧ Allowed P (h.step act) acts

instance (P : Hub D → Act D → Prop) [∀ h act, Decidable (P h act)] (h : Hub D) (acts : List (Act D)) :
    Decidable (h.Allowed P acts) := by
  induction acts generalizing h with
  | nil => exact .isTrue trivial
  | cons act acts ih => exact inferInstanceAs (Decidable (_ ∧ _ ∧ _ ∧ _))

theorem Reachable.foldl {P : Hub D → Act D → Prop} {h : Hub D} (hRun : h.Reachable P)
    {acts : List (Act D)} (hActs : h.Allowed P acts) : (acts.foldl step h).Reachable P := by
  induction acts generalizing h with
  | nil => exact hRun
  | cons act acts ih =>
    obtain ⟨hRunning, hReady, hKind, hRest⟩ := hActs
    exact ih (hRun.tail ⟨hRunning, act, hReady, hKind, rfl⟩) hRest

/-! ## Runs of a few clients -/

/-- A client comes in and gets the state `a`, its handshake works, and its writing task waits. -/
def connect (a : Nat) : List (Act Unit) :=
  [.accept Connection.quietIo, .incoming a { Connection.quietIo with confirm := true } .failed,
    .incoming a Connection.quietIo .failed, .outgoing a Connection.quietIo]

/-- The client sends its request with the number `msgid`, and its handler reads on. -/
def request (a : Nat) (msgid : UInt64) (svc : Service Unit) : List (Act Unit) :=
  [.incoming a { Connection.quietIo with packet := Connection.packetOf msgid } svc,
    .incoming a Connection.quietIo .failed]

end Hub

end Utu.Hub
