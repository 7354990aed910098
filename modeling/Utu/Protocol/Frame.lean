import Utu.Protocol.World
import Utu.Stackish.Safety

/-!
# Frames

A frame is a length, a header and a body. Sockets and buffers are taken as they
come: each call of `FrameSource_recv` and `FrameSource_send` meets one record of
everything the I/O functions answer it, and every answer is possible.
-/

namespace Utu.Protocol
open Stackish LinkedForest Procedure
set_option autoImplicit false

/-- What an I/O function returns, and the `errno` it leaves behind. -/
structure Io where
  rc : Bool
  errno : Nat
deriving DecidableEq, Repr

/-- The answers to one `FrameSource_recv`. -/
structure Incoming where
  ready : Io
  lengthRead : Io
  length : UInt16
  filled : Io
  data : Option Bytes
deriving DecidableEq, Repr

/-- The answers to one `FrameSource_send`: whether the buffer is too full at first, and the calls
in the order they are made. -/
structure Outgoing where
  full : Bool
  early : Io
  room : Bool
  putLength : Io
  putHeader : Io
  putBody : Io
  flush : Io
deriving DecidableEq, Repr

/-- A closed connection has nothing more in its lists. -/
structure Wire where
  incoming : List Incoming
  outgoing : List Outgoing
deriving DecidableEq, Repr

def Incoming.closed : Incoming := ⟨⟨false, 0⟩, ⟨false, 0⟩, 0, ⟨false, 0⟩, none⟩

def Outgoing.closed : Outgoing :=
  ⟨false, ⟨false, 0⟩, false, ⟨false, 0⟩, ⟨false, 0⟩, ⟨false, 0⟩, ⟨false, 0⟩⟩

section Frame
variable {D K S : Type} (env : Env D K S)

def nextIncoming : Call D K S Wire Incoming := do
  let w ← get
  set { w with data := { w.data with incoming := w.data.incoming.tail } }
  return w.data.incoming.headD .closed

def nextOutgoing : Call D K S Wire Outgoing := do
  let w ← get
  set { w with data := { w.data with outgoing := w.data.outgoing.tail } }
  return w.data.outgoing.headD .closed

def io {U : Type} (answer : Io) : Call D K S U Bool := do
  modify fun w => { w with errno := answer.errno }
  return answer.rc

/-- `FrameSource_recv` from the data of one frame on: the body, the raw header and the header. -/
def splitFrame (data : Bytes) : Call D K S Wire (Option Nat × Option Bytes × Option Nat) := do
  let (header, start) ← parseSeq env data 0
  if !(← check header.isSome) then return (none, none, header)
  let hbuf := bmidstr data 0 start
  if start < data.length then
    let (msg, stop) ← parseSeq env data start
    if !(← check msg.isSome) then return (msg, some hbuf, header)
    -- a violation is logged, and the body returned all the same
    let _ ← check (stop = data.length)
    return (msg, some hbuf, header)
  else
    let _ ← check (start = data.length)
    return (none, some hbuf, header)

/-- `FrameSource_recv` -/
def frameSourceRecv : Call D K S Wire (Option Nat × Option Bytes × Option Nat) := do
  let f ← nextIncoming
  if !(← io f.ready) then return (none, none, none)
  let rc ← io f.lengthRead
  if !(← check rc) then return (none, none, none)
  if !(← check (0 < f.length)) then return (none, none, none)
  let rc ← io f.filled
  if !(← check rc) then return (none, none, none)
  match f.data with
  | none =>
    let _ ← check false
    return (none, none, none)
  | some data =>
    if !(← check (data.length = f.length.toNat)) then return (none, none, none)
    splitFrame env data

/-- The first flush of `FrameSource_send`, made when the frame does not fit; a result means that
the call ends with it. -/
def makeRoom (o : Outgoing) : Call D K S Wire (Option Bool) := do
  if !o.full then return none
  let rc ← io o.early
  if !(← check rc) then return some rc
  if !(← check o.room) then return some false
  return none

/-- The writes of `FrameSource_send`, with the flush every caller asks for -/
def writeFrame (o : Outgoing) : Call D K S Wire Bool := do
  let rc ← io o.putLength
  if !(← check rc) then return rc
  let rc ← io o.putHeader
  if !(← check rc) then return rc
  let rc ← io o.putBody
  if !(← check rc) then return rc
  let rc ← io o.flush
  let _ ← check rc
  return rc

/-- `FrameSource_send` -/
def frameSourceSend (header : Option Bytes) (msg : Option Nat) : Call D K S Wire Bool := do
  let _ ← bstr env msg
  match header with
  | none => throw (.assertFailed "header cannot be NULL")
  | some _ =>
    if !(← check true) then return false
    let o ← nextOutgoing
    match ← makeRoom o with
    | some rc => return rc
    | none => writeFrame o

end Frame

end Utu.Protocol
