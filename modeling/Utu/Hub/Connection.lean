import Utu.Hub.Machine
import Utu.Hub.Queue

/-!
# A connection and its two tasks

`ConnectionState` with the task that reads from its client and the task that
writes to it. The tasks give up the processor only inside blocking I/O, in the
wait for a message, for the lock, and in `taskyield`; a step runs one of them
from there to the next such point. What the network and the library calls
answer in a step is its `Io`.
-/

namespace Utu.Hub
set_option autoImplicit false

inductive Side where
  | incoming
  | outgoing
deriving DecidableEq, Repr

/-- Where `ConnectionState_incoming` calls `ConnectionState_exec` -/
inductive ReadCall where
  | firstPass
  | secondPass
  | msgRecv
  | svcRecv
  | readClose
deriving DecidableEq, Repr

/-- Where `ConnectionState_outgoing` calls `ConnectionState_exec` -/
inductive WriteCall where
  | msgQueued
  | msgSent
  | fail
  | writeClose
deriving DecidableEq, Repr

/-- Where the reading task stands: in `Peer_establish_receiver`, with what the key confirmation
returned, in `Member_logout` under a call, in `Peer_recv`, at the lock, or behind the unlock. -/
inductive Incoming where
  | start
  | establishing (call : ReadCall) (confirm : Option Bool)
  | closing (call : ReadCall) (rest : Bool)
  | reading
  | locking
  | unlocked
  | finished
deriving DecidableEq, Repr

/-- Where the writing task stands: in `MsgQueue_wait`, at the lock, in `Peer_send`, in
`Member_logout` under a call, or behind the unlock. -/
inductive Outgoing where
  | absent
  | created
  | waiting (woken : Bool)
  | locking
  | sending
  | closing (call : WriteCall) (rest : Bool)
  | unlocked
  | ended
deriving DecidableEq, Repr

/-- A task in `MsgQueue_wait` is woken up. -/
def Outgoing.wake : Outgoing → Outgoing
  | .waiting _ => .waiting true
  | pc => pc

/-- What a connection looks like at one moment: its state, its pointers that are not NULL, and
what has happened on it. -/
structure View where
  cs : Cs
  client : Bool
  peer : Bool
  member : Bool
  confirmed : Bool
  loggedIn : Bool
  established : Bool
deriving DecidableEq, Repr

/-- What has happened on a connection: its views after every write, those at the calls of
`Peer_recv`, `Hub_service_message` and `ConnectionState_send_msg`, the packets that were read, the
messages that were queued and sent, and how often it was finished. -/
structure History (D : Type) where
  views : List View
  recvs : List View
  packets : List (Option UInt64)
  services : List View
  serviced : List UInt64
  sendCalls : List View
  sends : List (UInt64 × Message D)
  added : List (Message D)
  finishes : Nat
deriving DecidableEq, Repr

/-- What a step does outside of its connection. -/
inductive Effect (D : Type) where
  | alloc (m : Message D)
  | retain (m : Message D)
  | release (m : Message D)
  | service (m : Message D)
  | unregisterAll
  | push
  | hubClose
deriving DecidableEq, Repr

structure Connection (D : Type) where
  cs : Cs
  recvCount : UInt64
  sendCount : UInt64
  client : Bool
  peer : Bool
  member : Option (MsgQueue D)
  lock : Option Side
  recvHdr : Option (Stackish.Tree D)
  recvBody : Option (Stackish.Tree D)
  recvMsg : Option (Message D)
  sendMsg : Option (Message D)
  incoming : Incoming
  outgoing : Outgoing
  fault : Option Fault
  confirmed : Bool
  loggedIn : Bool
  established : Bool
  past : History D
  effects : List (Effect D)
deriving DecidableEq, Repr

/-- The answers of one step: whether the keys and the peer were created, whether the handshake calls
for the key confirmation or returns, and with what, whether the member was logged in, what was read,
with which `errno` and which number for its message, and whether the service and the sending
worked. -/
structure Io (D : Type) where
  crypt : Bool
  peer : Bool
  confirm : Bool
  login : Bool
  established : Bool
  packet : Packet D
  errno : Nat
  ref : Nat
  service : Bool
  sent : Bool
deriving DecidableEq, Repr

/-- How an action ends: the next one follows, `fgoto Aborting`, the task waits in `Member_logout`
and the second close follows or not, it waits in the handshake, or the process ends. -/
inductive Flow where
  | next
  | abort
  | wait (rest : Bool)
  | tune
  | stop
deriving DecidableEq, Repr

/-- How a call of `ConnectionState_exec` ends. -/
inductive ExecResult where
  | returned (rc : Int)
  | waiting (rest : Bool)
  | tuning
  | stopped
deriving DecidableEq, Repr

namespace Connection
variable {D : Type}

/-- The state that `Hub_queue_conn` starts with. -/
def opened : Connection D where
  cs := .start
  recvCount := 0
  sendCount := 0
  client := true
  peer := false
  member := none
  lock := none
  recvHdr := none
  recvBody := none
  recvMsg := none
  sendMsg := none
  incoming := .start
  outgoing := .absent
  fault := none
  confirmed := false
  loggedIn := false
  established := false
  past := ⟨[], [], [], [], [], [], [], [], 0⟩
  effects := []

def view (c : Connection D) : View :=
  ⟨c.cs, c.client, c.peer, c.member.isSome, c.confirmed, c.loggedIn, c.established⟩

/-- Every write to what a view shows is followed by a view. -/
def seen (c : Connection D) : Connection D :=
  { c with past := { c.past with views := c.past.views ++ [c.view] } }

def emit (c : Connection D) (e : Effect D) : Connection D := { c with effects := c.effects ++ [e] }

def crash (c : Connection D) (f : Fault) : Connection D := { c with fault := some f }

def move (c : Connection D) (cs : Cs) : Connection D := seen { c with cs }

/-- `ConnectionState_done` -/
def done (c : Connection D) : Bool := c.cs = .error || c.cs = .final

/-- `ConnectionState_invariant` -/
def invariant (c : Connection D) : Int :=
  if c.cs = .error then -1 else if c.cs = .final then 1 else 0

/-! ## Closing -/

/-- `ConnectionState_half_close` up to the yield in `Member_logout` -/
def halfClose (c : Connection D) (rest : Bool) : Connection D × Flow :=
  if c.client then
    let c := seen { c with client := false }
    match c.member with
    | some q =>
      (emit { c with member := some { q with dead := true }, outgoing := c.outgoing.wake }
        .unregisterAll, .wait rest)
    | none => (c, .next)
  else (c, .next)

/-- `ConnectionState_half_close` behind the yield: the member is destroyed with its queue. -/
def logout (c : Connection D) (q : MsgQueue D) : Connection D :=
  seen { c with member := none, effects := c.effects ++ q.destroy.map .release }

/-- `ConnectionState_rest_close` -/
def restClose (c : Connection D) : Connection D × Flow :=
  if c.client then
    (c.crash (.assertFailed "Attempting to call rest_close before half_close called."), .stop)
  else (c.emit .push, .next)

/-! ## Actions -/

/-- Action `recv` -/
def recv (io : Io D) (c : Connection D) : Connection D × Flow :=
  match c.recvHdr, c.recvBody with
  | some hdr, some body =>
    match messageDecons io.errno hdr body with
    | some msgid =>
      let m : Message D := ⟨io.ref, msgid, body⟩
      ({ c.emit (.alloc m) with recvMsg := some m }, .next)
    | none => ({ c with recvMsg := none }, .abort)
  | _, _ => (c, .abort)

/-- Action `service`: `Hub_service_message`, which keeps a message that it fails on -/
def service (io : Io D) (c : Connection D) : Connection D × Flow :=
  match c.recvMsg with
  | none => (c.crash .nullPointer, .stop)
  | some m =>
    let c := { c.emit (.service m) with past := { c.past with
      services := c.past.services ++ [c.view]
      serviced := c.past.serviced ++ [m.msgid] } }
    if io.service then (c, .next) else (c.emit (.retain m), .abort)

/-- Action `msgid_check` -/
def msgidCheck (c : Connection D) : Connection D × Flow :=
  match c.recvMsg with
  | none => (c.crash .nullPointer, .stop)
  | some m =>
    if m.msgid ≠ c.recvCount then (c.emit (.retain m), .abort)
    else ({ c with recvCount := c.recvCount + 1 }, .next)

/-- Action `sent` -/
def sent (c : Connection D) : Connection D × Flow :=
  match c.member with
  | none => (c.crash (.assertFailed "member cannot be NULL"), .stop)
  | some q =>
    match q.delete with
    | (some m, q) => ({ c.emit (.release m) with member := some q }, .next)
    | (none, q) => ({ c with member := some q }, .next)

/-- The actions of the chart. Behind `open` the reading task goes on, and in `tune` it waits. -/
def act (io : Io D) (c : Connection D) : Action → Connection D × Flow
  | .begin => ({ c with recvCount := 1, sendCount := 1, lock := none }, .next)
  | .open => (c, .next)
  | .keyPrep =>
    if io.crypt then (seen { c with peer := io.peer }, if io.peer then .next else .abort)
    else (c.crash .nullPointer, .stop)
  | .tune => (c, .tune)
  | .register =>
    if io.login then
      (seen { c with member := some (.create memberMsgQueueLength), loggedIn := true }, .next)
    else (seen { c with member := none }, .abort)
  | .established => ({ c with outgoing := .created }, .next)
  | .recv => c.recv io
  | .clearRecv => ({ c with recvMsg := none, recvHdr := none, recvBody := none }, .next)
  | .clearSend => ({ c with sendMsg := none }, .next)
  | .service => c.service io
  | .msgidCheck => c.msgidCheck
  | .sent => c.sent
  | .error =>
    match c.halfClose true with
    | (c, .next) => c.restClose
    | r => r
  | .halfClose => c.halfClose false
  | .restClose => c.restClose
  | .msgReady | .aborted => (c, .next)
  | .hateApply | .hateChallenge | .hatePaid | .hateValid | .hateInvalid => (c, .next)

/-- The actions of one transition; all but `next` cut off those behind. -/
def runActions (io : Io D) : List Action → Connection D → Connection D × Flow
  | [], c => (c, .next)
  | a :: rest, c =>
    match c.act io a with
    | (c, .next) => runActions io rest c
    | r => r

/-- `ConnectionState_exec`: the target is entered before the actions run. -/
def exec (io : Io D) (c : Connection D) (e : HubEvent) : Connection D × ExecResult :=
  if c.done then (c, .returned (-1))
  else
    match runActions io (transition c.cs e).2 (c.move (transition c.cs e).1) with
    | (c, .next) => (c, .returned c.invariant)
    | (c, .abort) => (c.move .aborting, .returned (c.move .aborting).invariant)
    | (c, .wait rest) => (c, .waiting rest)
    | (c, .tune) => (c, .tuning)
    | (c, .stop) => (c, .stopped)

/-- `qunlock`: the lock goes over to a task that waits for it. -/
def unlock (c : Connection D) (side : Side) : Connection D :=
  match c.lock with
  | none => c.crash (.assertFailed "qunlock: owner=0")
  | some _ =>
    match side with
    | .incoming => { c with lock := if c.outgoing = .locking then some .outgoing else none }
    | .outgoing => { c with lock := if c.incoming = .locking then some .incoming else none }

/-! ## The reading task -/

section Incoming
variable (io : Io D)

/-- `Hub_connection_handler` behind `Hub_queue_conn` -/
def handled (c : Connection D) : Connection D := { c.emit .hubClose with incoming := .finished }

/-- `ConnectionState_incoming` behind its loop -/
def readClose (c : Connection D) : Connection D :=
  match c.exec io .readClose with
  | (c, .returned _) => c.handled
  | (c, .waiting rest) => { c with incoming := .closing .readClose rest }
  | (c, _) => c

/-- `ConnectionState_read_msg` up to `Peer_recv` -/
def readMsg (c : Connection D) : Connection D :=
  if c.done || !c.client then c.readClose io
  else
    match c.member with
    | none => c.crash .nullPointer
    | some _ =>
      { c with incoming := .reading, past := { c.past with recvs := c.past.recvs ++ [c.view] } }

/-- The end of the loop's body -/
def readUnlock (c : Connection D) : Connection D := { c.unlock .incoming with incoming := .unlocked }

def svcRecv (c : Connection D) : Connection D :=
  match c.exec io .svcRecv with
  | (c, .returned _) => c.readUnlock
  | (c, .waiting rest) => { c with incoming := .closing .svcRecv rest }
  | (c, _) => c

/-- Behind `ConnectionState_exec(state, UEv_MSG_RECV)`, with its result -/
def afterMsgRecv (c : Connection D) (rc : Int) : Connection D :=
  if rc = 0 ∧ c.recvMsg.isSome then c.svcRecv io else c.readUnlock

def msgRecv (c : Connection D) : Connection D :=
  match c.exec io .msgRecv with
  | (c, .returned rc) => c.afterMsgRecv io rc
  | (c, .waiting rest) => { c with incoming := .closing .msgRecv rest }
  | (c, _) => c

def readLock (c : Connection D) : Connection D :=
  if c.lock.isNone then msgRecv io { c with lock := some .incoming } else { c with incoming := .locking }

/-- `ConnectionState_read_msg` behind `Peer_recv` -/
def afterRecv (c : Connection D) : Connection D :=
  let c := { c with recvBody := io.packet.body, recvHdr := io.packet.hdr }
  if io.packet.body.isNone then c.readClose io
  else readLock io { c with past := { c.past with packets := c.past.packets ++ [io.packet.msgid] } }

def secondPass (c : Connection D) : Connection D :=
  match c.exec io .pass with
  | (c, .returned _) => c.readMsg io
  | (c, .waiting rest) => { c with incoming := .closing .secondPass rest }
  | (c, .tuning) => { c with incoming := .establishing .secondPass none }
  | (c, .stopped) => c

def firstPass (c : Connection D) : Connection D :=
  match c.exec io .pass with
  | (c, .returned _) => c.secondPass io
  | (c, .waiting rest) => { c with incoming := .closing .firstPass rest }
  | (c, .tuning) => { c with incoming := .establishing .firstPass none }
  | (c, .stopped) => c

/-- `Hub_queue_conn` and the start of `ConnectionState_incoming` inside its action `open` -/
def queueConn (c : Connection D) : Connection D :=
  match c.exec io .open with
  | (c, .returned _) =>
    match c.exec io .keyPresent with
    | (c, .returned _) => c.firstPass io
    | (c, _) => c
  | (c, _) => c

/-- `ConnectionState_confirm_key` -/
def confirmKey (c : Connection D) (call : ReadCall) : Connection D :=
  match exec io (seen { c with confirmed := true }) .pass with
  | (c, .returned rc) => { c with incoming := .establishing call (some (rc = 0)) }
  | (c, _) => c

/-- `ConnectionState_incoming` behind a call of `ConnectionState_exec`, with its result -/
def afterRead (c : Connection D) (rc : Int) : ReadCall → Connection D
  | .firstPass => c.secondPass io
  | .secondPass => c.readMsg io
  | .msgRecv => c.afterMsgRecv io rc
  | .svcRecv => c.readUnlock
  | .readClose => c.handled

/-- Action `tune` behind `Peer_establish_receiver` -/
def afterEstablish (c : Connection D) (call : ReadCall) : Connection D :=
  let c := if io.established then seen { c with established := true } else c.move .aborting
  c.afterRead io c.invariant call

end Incoming

/-- A close behind the yield of `Member_logout` -/
def afterLogout (c : Connection D) (rest : Bool) : Connection D × Flow :=
  match c.member with
  | none => (c.crash .useAfterFree, .stop)
  | some q => if rest then (c.logout q).restClose else (c.logout q, .next)

def runIncoming (io : Io D) (c : Connection D) : Connection D :=
  match c.incoming with
  | .start => c.queueConn io
  | .establishing call _ => if io.confirm then c.confirmKey io call else c.afterEstablish io call
  | .closing call rest =>
    match c.afterLogout rest with
    | (c, .next) => c.afterRead io c.invariant call
    | (c, _) => c
  | .reading => c.afterRecv io
  | .locking => c.msgRecv io
  | .unlocked => c.readMsg io
  | .finished => c

/-! ## The writing task -/

section Outgoing
variable (io : Io D)

/-- `ConnectionState_outgoing` behind its loop -/
def writeClose (c : Connection D) : Connection D :=
  match c.exec io .writeClose with
  | (c, .returned _) => { c with outgoing := .ended }
  | (c, .waiting rest) => { c with outgoing := .closing .writeClose rest }
  | (c, _) => c

/-- The end of the loop's body -/
def writeUnlock (c : Connection D) : Connection D := { c.unlock .outgoing with outgoing := .unlocked }

/-- `ConnectionState_exec(state, UEv_FAIL)` and the `break` behind it, without an unlock -/
def sendFailed (c : Connection D) : Connection D :=
  match c.exec io .fail with
  | (c, .returned _) => c.writeClose io
  | (c, .waiting rest) => { c with outgoing := .closing .fail rest }
  | (c, _) => c

def sendWorked (c : Connection D) : Connection D :=
  match c.exec io .msgSent with
  | (c, .returned _) => c.writeUnlock
  | (c, .waiting rest) => { c with outgoing := .closing .msgSent rest }
  | (c, _) => c

/-- `ConnectionState_send_msg` up to `Peer_send` -/
def sendMessage (c : Connection D) : Connection D :=
  let c := { c with past := { c.past with sendCalls := c.past.sendCalls ++ [c.view] } }
  if c.done then c.sendFailed io
  else
    match c.member, c.sendMsg with
    | some _, some m =>
      { c with sendCount := c.sendCount + 1, outgoing := .sending
               past := { c.past with sends := c.past.sends ++ [(c.sendCount, m)] } }
    | _, _ => c.crash .nullPointer

/-- Behind `ConnectionState_exec(state, UEv_MSG_QUEUED)`, with its result -/
def afterMsgQueued (c : Connection D) (rc : Int) : Connection D :=
  if rc = 0 then c.sendMessage io else c.writeUnlock

def msgQueued (c : Connection D) : Connection D :=
  match c.exec io .msgQueued with
  | (c, .returned rc) => c.afterMsgQueued io rc
  | (c, .waiting rest) => { c with outgoing := .closing .msgQueued rest }
  | (c, _) => c

/-- `ConnectionState_outgoing` behind `ConnectionState_dequeue_msg` -/
def afterDequeue (c : Connection D) (first : Option (Message D)) : Connection D :=
  let c := { c with sendMsg := first }
  if first.isNone then c.writeClose io
  else if c.lock.isNone then msgQueued io { c with lock := some .outgoing }
  else { c with outgoing := .locking }

/-- `ConnectionState_dequeue_msg` up to `MsgQueue_wait` -/
def dequeue (c : Connection D) : Connection D :=
  if c.done then c.writeClose io
  else
    match c.member with
    | none => c.crash (.assertFailed "member cannot be NULL")
    | some q =>
      if q.dead then c.afterDequeue io none
      else if q.isEmpty then { c with outgoing := .waiting false }
      else c.afterDequeue io q.first

/-- `MsgQueue_first` behind its wait: the queue may be gone with its member. -/
def afterWait (c : Connection D) : Connection D :=
  match c.member with
  | none => c.crash .useAfterFree
  | some q => c.afterDequeue io (if q.dead || q.isEmpty then none else q.first)

/-- `ConnectionState_outgoing` behind a call of `ConnectionState_exec`, with its result -/
def afterWrite (c : Connection D) (rc : Int) : WriteCall → Connection D
  | .msgQueued => c.afterMsgQueued io rc
  | .msgSent => c.writeUnlock
  | .fail => c.writeClose io
  | .writeClose => { c with outgoing := .ended }

end Outgoing

def runOutgoing (io : Io D) (c : Connection D) : Connection D :=
  match c.outgoing with
  | .created | .unlocked => c.dequeue io
  | .waiting _ => c.afterWait io
  | .locking => c.msgQueued io
  | .sending => if io.sent then c.sendWorked io else c.sendFailed io
  | .closing call rest =>
    match c.afterLogout rest with
    | (c, .next) => c.afterWrite io c.invariant call
    | (c, _) => c
  | .absent | .ended => c

/-- `Member_send_msg` on the connection's member, by anyone -/
def deliver (c : Connection D) (m : Message D) : Connection D :=
  match c.member with
  | none => c
  | some q =>
    match q.add m with
    | (true, q) =>
      { c with member := some q, outgoing := c.outgoing.wake
               past := { c.past with added := c.past.added ++ [m] } }
    | (false, _) => c

/-- `ConnectionState_finish` -/
def finish (c : Connection D) : Connection D :=
  seen { c with
    recvMsg := none
    recvHdr := none
    recvBody := none
    sendMsg := none
    peer := false
    effects := c.effects ++ (c.recvMsg.toList ++ c.sendMsg.toList).map .release
    past := { c.past with finishes := c.past.finishes + 1 } }

/-! ## Runs -/

/-- What can happen to a connection between two yields: one of its tasks runs, a message is queued
for it, or its handler is through and finishes it. -/
inductive Event (D : Type) where
  | incoming (io : Io D)
  | outgoing (io : Io D)
  | deliver (m : Message D)
  | finish
deriving DecidableEq, Repr

/-- The task can run. The handshake confirms the key once, and returns 1 only behind a confirmation
that did; `MsgQueue_wait` waits to be woken, and the lock to be handed over. -/
def Ready (c : Connection D) : Event D → Prop
  | .incoming io =>
    match c.incoming with
    | .establishing _ confirm =>
      if io.confirm then confirm = none else io.established = true → confirm = some true
    | .locking => c.lock = some .incoming
    | .finished => False
    | _ => True
  | .outgoing _ =>
    match c.outgoing with
    | .waiting woken => woken = true
    | .locking => c.lock = some .outgoing
    | .absent | .ended => False
    | _ => True
  | .deliver _ => True
  | .finish => c.incoming = .finished

instance (c : Connection D) (e : Event D) : Decidable (c.Ready e) := by
  unfold Ready
  split
  · split <;> infer_instance
  · split <;> infer_instance
  · infer_instance
  · infer_instance

def step (c : Connection D) : Event D → Connection D
  | .incoming io => c.runIncoming io
  | .outgoing io => c.runOutgoing io
  | .deliver m => c.deliver m
  | .finish => c.finish

/-- One step of a process that has not crashed. -/
def Step (c c' : Connection D) : Prop := c.fault = none ∧ ∃ e, c.Ready e ∧ c' = c.step e

/-- The connections that some run from a new client leads to. -/
def Reachable (c : Connection D) : Prop := Relation.ReflTransGen Step opened c

/-- The events can happen in this order. -/
def Allowed (c : Connection D) : List (Event D) → Prop
  | [] => True
  | e :: es => c.fault = none ∧ c.Ready e ∧ Allowed (c.step e) es

instance (c : Connection D) (es : List (Event D)) : Decidable (c.Allowed es) := by
  induction es generalizing c with
  | nil => exact .isTrue trivial
  | cons e es ih => exact inferInstanceAs (Decidable (_ ∧ _ ∧ _))

theorem Reachable.foldl {c : Connection D} (h : Reachable c) {es : List (Event D)} (hes : c.Allowed es) :
    Reachable (es.foldl step c) := by
  induction es generalizing c with
  | nil => exact h
  | cons e es ih =>
    obtain ⟨hFault, hReady, hRest⟩ := hes
    exact ih (h.tail ⟨hFault, e, hReady, rfl⟩) hRest

/-! ## A run -/

/-- A step in which every call works and nothing is read. -/
def quietIo : Io Unit where
  crypt := true
  peer := true
  confirm := false
  login := true
  established := true
  packet := ⟨none, none⟩
  errno := 0
  ref := 0
  service := true
  sent := true

/-- A client comes in and its handshake works. -/
def greeting : List (Event Unit) :=
  [.incoming quietIo, .incoming { quietIo with confirm := true }, .incoming quietIo]

/-- A packet with a number. -/
def packetOf (msgid : UInt64) : Packet Unit where
  hdr := some (.node ⟨some Protocol.headerName, .group⟩ (.node ⟨none, .number msgid⟩ .nil .nil) .nil)
  body := some (.node ⟨some Protocol.headerName, .group⟩ (.node ⟨none, .group⟩ .nil .nil) .nil)

/-- A message that somebody else sends. -/
def noteOf (ref : Nat) : Message Unit := ⟨ref, 1, .nil⟩

end Connection

end Utu.Hub
