import Utu.Protocol.Decrypt
import Utu.Protocol.Frame

/-!
# Peers

The two handshakes of `peer.c`. Each is cut where its result variable `rc` is
left standing while a step that does not write it can fail; a part either goes
on with `rc` or ends the call with it.
-/

namespace Utu.Protocol
open Stackish LinkedForest Procedure
set_option autoImplicit false

/-- Whether the call goes on, and `rc` either way. -/
inductive Progress where
  | goOn (rc : Bool)
  | exit (rc : Bool)
deriving DecidableEq, Repr

section Peer
variable {D K S : Type} (env : Env D K S) (keyConfirm : KeyConfirm D K S Wire)

/-- The exit label: what is left of the messages is destroyed. -/
def leave {U : Type} (rc : Bool) (a b c : Option Nat) : Call D K S U Bool := do
  destroy a
  destroy b
  destroy c
  return rc

def orAssert {U α : Type} (what : String) : Option α → Call D K S U α
  | some a => pure a
  | none => throw (.assertFailed what)

/-! ## The receiver -/

/-- `Peer_establish_receiver` up to the initiator's identity -/
def identifyInitiator : Call D K S Wire Progress := do
  let rmsg ← receiverStart env
  let rc ← frameSourceSend env (some []) rmsg
  if !(← check rc) then return .exit (← leave rc rmsg none none)
  destroy rmsg
  let (imsg, header, ihdr) ← frameSourceRecv env
  if !(← check imsg.isSome) then return .exit (← leave false none imsg ihdr)
  let payload ← orAssert "payload cannot be NULL" imsg
  let hbuf ← orAssert "hbuf cannot be NULL" header
  let rc ← receiverProcessResponse env hbuf payload keyConfirm
  if !(← check rc) then return .exit (← leave rc none imsg ihdr)
  destroy imsg
  destroy ihdr
  return .goOn rc

/-- `Peer_establish_receiver`: the receiver's answer -/
def answerInitiator (rc : Bool) : Call D K S Wire Progress := do
  let (rmsg, header) ← receiverSendFinal env
  if !(← check rmsg.isSome) then return .exit (← leave rc rmsg none none)
  let rc ← frameSourceSend env (some header) rmsg
  if !(← check rc) then return .exit (← leave rc rmsg none none)
  destroy rmsg
  return .goOn rc

/-- `Peer_establish_receiver`: the initiator's last message -/
def awaitInitiator (rc : Bool) : Call D K S Wire Bool := do
  let (imsg, header, ihdr) ← frameSourceRecv env
  if !(← check imsg.isSome) then leave rc none imsg ihdr
  else
    let msg ← orAssert "msg cannot be NULL" imsg
    let hbuf ← orAssert "header cannot be NULL" header
    let rc ← receiverDone env hbuf msg
    let _ ← check rc
    leave rc none imsg ihdr

def peerEstablishReceiver : Call D K S Wire Bool := do
  match ← identifyInitiator env keyConfirm with
  | .exit rc => return rc
  | .goOn rc =>
    match ← answerInitiator env rc with
    | .exit rc => return rc
    | .goOn rc => awaitInitiator env rc

/-! ## The initiator -/

/-- `Peer_establish_initiator` up to the initiator's identity -/
def introduceInitiator : Call D K S Wire Progress := do
  let (rmsg, _, rhdr) ← frameSourceRecv env
  if !(← check (rmsg.isNone && rhdr.isSome)) then return .exit (← leave false rmsg rhdr none)
  let recvhdr ← orAssert "recvhdr cannot be NULL" rhdr
  let (imsg, header) ← initiatorStart env recvhdr keyConfirm
  if !(← check imsg.isSome) then return .exit (← leave false rmsg rhdr imsg)
  destroy rhdr
  let rc ← frameSourceSend env header imsg
  if !(← check rc) then return .exit (← leave rc rmsg none imsg)
  destroy imsg
  return .goOn rc

/-- `Peer_establish_initiator`: the receiver's answer. Its header is only destroyed at the end. -/
def hearReceiver (rc : Bool) : Call D K S Wire (Progress × Option Nat) := do
  let (rmsg, header, rhdr) ← frameSourceRecv env
  if !(← check rmsg.isSome) then return (.exit (← leave rc rmsg rhdr none), none)
  let msg ← orAssert "msg cannot be NULL" rmsg
  let hbuf ← orAssert "header cannot be NULL" header
  let rc ← initiatorProcessResponse env hbuf msg
  if !(← check rc) then return (.exit (← leave rc rmsg rhdr none), none)
  destroy rmsg
  return (.goOn rc, rhdr)

/-- `Peer_establish_initiator`: the initiator's last message -/
def confirmReceiver (rc : Bool) (rhdr : Option Nat) : Call D K S Wire Bool := do
  let (imsg, header) ← initiatorSendFinal env
  if !(← check imsg.isSome) then leave rc none rhdr imsg
  else
    let rc ← frameSourceSend env (some header) imsg
    let _ ← check rc
    leave rc none rhdr imsg

def peerEstablishInitiator : Call D K S Wire Bool := do
  match ← introduceInitiator env keyConfirm with
  | .exit rc => return rc
  | .goOn rc =>
    match ← hearReceiver env rc with
    | (.exit rc, _) => return rc
    | (.goOn rc, rhdr) => confirmReceiver env rc rhdr

/-! ## Messages -/

/-- `Peer_recv`: the message and its header. -/
def peerRecv : Call D K S Wire (Option Nat × Option Nat) := do
  let (packet, header, rhdr) ← frameSourceRecv env
  match packet with
  | none => return (none, rhdr)
  | some p =>
    let hbuf ← orAssert "header cannot be NULL" header
    let w ← get
    let msg ← decryptNode env w.state.me.skey hbuf p
    let _ ← check msg.isSome
    destroy packet
    return (msg, rhdr)

end Peer

end Utu.Protocol
