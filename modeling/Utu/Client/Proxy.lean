import Utu.Protocol.Handshake

/-!
# The client's proxy

`Proxy_connect` and the functions of `io.c` and `proxy.c` under it. What the
operating system answers is arbitrary and comes in the order of the calls. The
two public keys of the hub are pointers that a function may free behind the
back of the others, and reading them then stops the model.
-/

namespace Utu.Client
open Stackish Protocol LinkedForest Procedure
set_option autoImplicit false

/-- A `bstring` field. -/
inductive KeyRef where
  | null
  | live (key : Bytes)
  | freed
deriving DecidableEq, Repr

def KeyRef.ofOption : Option Bytes → KeyRef
  | none => .null
  | some key => .live key

/-- The value behind the pointer. -/
def KeyRef.read : KeyRef → Run (Option Bytes)
  | .null => pure none
  | .live key => pure (some key)
  | .freed => throw .useAfterFree

/-- `biseq` looks for NULL before it looks at either string. -/
def KeyRef.biseq : KeyRef → KeyRef → Run Int
  | .null, _ => pure (-1)
  | _, .null => pure (-1)
  | a, b => do return Utu.biseq (← a.read) (← b.read)

structure ProxyClient where
  name : Option Bytes
  key : Option Bytes
  writeFd : Int
deriving DecidableEq, Repr

structure ProxyHost where
  host : Option Bytes
  port : Option Bytes
  name : Option Bytes
  key : KeyRef
  fd : Int
deriving DecidableEq, Repr

structure Proxy where
  client : ProxyClient
  host : ProxyHost
  hostGivenKey : KeyRef
deriving DecidableEq, Repr

/-- What one `readn` got before it returned, and the `errno` it left. -/
structure Reading where
  data : Bytes
  errno : Nat
deriving DecidableEq, Repr

/-- What one `writev` returned, and the `errno` it left. -/
structure Writing where
  rc : Int
  errno : Nat
deriving DecidableEq, Repr

/-- The answers of the system: the `errno` that `CryptState_init` leaves, the descriptor from
`tcp_client`, and all reads and writes. -/
structure Net where
  init : Nat
  tcp : Int
  reads : List Reading
  writes : List Writing
deriving DecidableEq, Repr

structure Link where
  conn : Proxy
  net : Net
deriving DecidableEq, Repr

/-- `UtuMendicantErrorCode` -/
inductive ErrorCode where
  | invalidHub
  | invalidClient
  | stackish
  | hubIo
  | listenerIo
  | io
  | crypto
  | net
  | peerEstablish
  | peerVerify
  | config
deriving DecidableEq, Repr

def ErrorCode.number : ErrorCode → UInt64
  | .invalidHub => 400
  | .invalidClient => 401
  | .stackish => 402
  | .hubIo => 403
  | .listenerIo => 404
  | .io => 405
  | .crypto => 406
  | .net => 407
  | .peerEstablish => 408
  | .peerVerify => 409
  | .config => 410

section Proxy
variable {D K S : Type} (env : Env D K S)

abbrev Step (D K S α : Type) := Call D K S Link α

def assertThat (c : Bool) (what : String) : Step D K S Unit :=
  if c then pure () else throw (.assertFailed what)

def modifyConn (f : Proxy → Proxy) : Step D K S Unit :=
  modify fun w => { w with data := { w.data with conn := f w.data.conn } }

/-! ## Reading and writing -/

def nextRead : Step D K S Reading := do
  let w ← get
  set { w with data := { w.data with net := { w.data.net with reads := w.data.net.reads.tail } } }
  return w.data.net.reads.headD ⟨[], 0⟩

def nextWrite : Step D K S Writing := do
  let w ← get
  set { w with data := { w.data with net := { w.data.net with writes := w.data.net.writes.tail } } }
  return w.data.net.writes.headD ⟨-1, 0⟩

/-- `readn`: the bytes, if all of them came. -/
def readn (fd : Int) (len : Nat) : Step D K S (Option Bytes) := do
  assertThat (0 ≤ fd) "invalid socket on readn"
  assertThat (0 < len) "attempt to read 0"
  let r ← nextRead
  modify fun w => { w with errno := r.errno }
  if r.data.length = len then
    assertThat (r.errno = 0) "damn errno leak"
    return some r.data
  else return none

/-- `ntohs` of the two bytes of a record length -/
def reclen (head : Bytes) : Nat := head.foldl (fun n b => 256 * n + b.toNat) 0

/-- `readframe` -/
def readframe (fd : Int) : Step D K S (Option Bytes) := do
  match ← readn fd 2 with
  | none =>
    let _ ← check false
    return none
  | some head =>
    if !(← check true) then return none
    match ← readn fd (reclen head) with
    | none =>
      let _ ← check false
      return none
    | some data =>
      if !(← check true) then return none
      return some data

/-- `readnodes`: the body and the header. -/
def readnodes (fd : Int) : Step D K S (Option Nat × Option Nat) := do
  match ← readframe fd with
  | none =>
    let _ ← check false
    return (none, none)
  | some data =>
    if !(← check true) then return (none, none)
    let (header, start) ← parseSeq env data 0
    if !(← check header.isSome) then return (none, header)
    let (body, _) ← parseSeq env data start
    return (body, header)

/-- `Node_catbstr(str, node, ' ', 1)` -/
def catbstr (str : Bytes) (node : Option Nat) : Step D K S Bytes := do
  let w ← get
  (nodeCatbstr env.lib w.heap (w.heap.length + 1) str node 32 true : Run _)

/-- `write_header_node` -/
def writeHeaderNode (fd : Int) (header : Option Bytes) (body : Option Nat) : Step D K S Int := do
  let header ← orAssert "memory alloc failure" header
  assertThat (0 ≤ fd) "file descriptor invalid"
  let _ ← catbstr env header body
  let r ← nextWrite
  modify fun w => { w with errno := r.errno }
  let _ ← check (0 < r.rc)
  return r.rc

/-- `writenodes` -/
def writenodes (fd : Int) (header body : Option Nat) : Step D K S Int := do
  let header ← orAssert "memory alloc failure" header
  assertThat (0 ≤ fd) "file descriptor invalid"
  let data ← catbstr env [] (some header)
  let rc ← writeHeaderNode env fd (some data) body
  let _ ← check (rc ≠ 0)
  return rc

/-! ## Errors -/

/-- `Proxy_error` -/
def proxyError (code : ErrorCode) (message : Option Bytes) : Step D K S Unit := do
  let err ← cons [.start, .number code.number, .blob message, .word (ascii "err")]
  let w ← get
  (nodeDump env.lib w.heap err true : Run _)
  let _ ← writenodes env w.data.conn.client.writeFd err none
  destroy err

/-- `check_err(T, N, M)`: whether the call goes on. A condition that fails is evaluated again
behind the report. -/
def checkErr (t : Step D K S Bool) (code : ErrorCode) (message : String) : Step D K S Bool := do
  if ← t then return true
  proxyError env code (some (ascii message))
  let b ← t
  check b

/-- A condition on the connection and the crypto state. -/
def test (f : World D K S Link → Bool) : Step D K S Bool := do
  let w ← get
  return f w

/-! ## Fingerprints -/

def hexDigit (n : UInt8) : UInt8 := if n < 10 then 48 + n else 87 + n

/-- `%02x` -/
def hexByte (b : UInt8) : Bytes := [hexDigit (b / 16), hexDigit (b % 16)]

/-- The loop over all bytes of the hash but the last: every second one is followed by a dash. -/
def fingerprintLoop : Nat → Bytes → Bytes
  | _, [] => []
  | _, [b] => hexByte b
  | i, b :: rest => hexByte b ++ (if i % 2 = 1 then [45] else []) ++ fingerprintLoop (i + 1) rest

/-- `CryptState_fingerprint_bstr`: the fingerprint, and what is left of the string. Without a hash
the length of the loop wraps. -/
def fingerprintBstr (str : KeyRef) : Step D K S (Option Bytes × KeyRef) := do
  match ← (str.read : Run _) with
  | none => throw (.assertFailed "memory alloc failure")
  | some key =>
    let hash := env.ltc.hashMemory key
    if !(← check hash.isSome) then return (none, str)
    match hash with
    | none => return (none, str)
    | some [] => throw .badPointer
    | some (b :: rest) => return (some (fingerprintLoop 0 (b :: rest)), .freed)

/-- `CryptState_fingerprint_key` -/
def fingerprintKey (key : K) (type : KeyType) : Step D K S (Option Bytes) := do
  match ← eccKeyBstr env key type with
  | none =>
    let _ ← check false
    return none
  | some outkey =>
    if !(← check true) then return none
    let (fp, _) ← fingerprintBstr env (.live outkey)
    return fp

/-- The text of `Proxy_dump_invalid_state`, whose format has 241 bytes. -/
def invalidState (host : ProxyHost) (given expectFp givenFp : Option Bytes) : Option Bytes :=
  bformat 241 (ascii "Invalid cryptographic state attempting to connect to Hub at:\n\t" ++
    cstr host.host ++ ascii ":" ++ cstr host.port ++ ascii " with expected name " ++
    cstr host.name ++ ascii " (given " ++ cstr given ++
    ascii ")\nWith expected key vs given key (fingerprints):\n\tEXPECT: " ++ cstr expectFp ++
    ascii "\n\tGIVEN : " ++ cstr givenFp ++
    ascii "\nYou most likely shouldn't talk to this Hub unless you gave bad keys.\n")

/-- `Proxy_dump_invalid_state`: both keys are freed on the way. -/
def proxyDumpInvalidState : Step D K S Unit := do
  let w ← get
  let (givenFp, given) ← fingerprintBstr env w.data.conn.hostGivenKey
  modifyConn fun conn => { conn with hostGivenKey := given }
  let (expectFp, expect) ← fingerprintBstr env w.data.conn.host.key
  modifyConn fun conn => { conn with host := { conn.host with key := expect } }
  proxyError env .peerVerify (invalidState w.data.conn.host w.state.them.name expectFp givenFp)

/-! ## Verification -/

/-- `Proxy_confirm_key` -/
def proxyConfirmKey : Step D K S Bool := do
  let w ← get
  let given ← eccKeyBstr env w.state.them.key .pkPublic
  modifyConn fun conn => { conn with hostGivenKey := .ofOption given }
  match w.data.conn.host.key with
  | .null => return true
  | .freed => throw .useAfterFree
  | .live key =>
    if biseq given (some key) = 0 then
      modify World.clear
      proxyDumpInvalidState env
      return false
    else return true

/-- `Proxy_listener_send` -/
def proxyListenerSend (header body : Option Nat) : Step D K S Bool := do
  let w ← get
  let rc ← writenodes env w.data.conn.client.writeFd header body
  if !(← checkErr env (pure (0 < rc)) .listenerIo "Failed to write data to client listener.") then
    return 0 < rc
  destroy body
  destroy header
  return 0 < rc

/-- `biseq(conn->host.key, conn->host_given_key)` -/
def keysMatch : Step D K S Bool := do
  let w ← get
  let same ← (w.data.conn.host.key.biseq w.data.conn.hostGivenKey : Run _)
  return same ≠ 0

/-- `Proxy_final_verify`: the response to the listener, with the keys of both sides. -/
def verifyResponse : Step D K S Bool := do
  let w ← get
  let hostFp ← fingerprintKey env w.state.them.key .pkPublic
  let clientPubFp ← fingerprintKey env w.state.me.key .pkPublic
  let clientPub ← eccKeyBstr env w.state.me.key .pkPublic
  let clientPrvFp ← fingerprintKey env w.state.me.key .pkPrivate
  let clientPrv ← eccKeyBstr env w.state.me.key .pkPrivate
  let given ← (w.data.conn.hostGivenKey.read : Run _)
  let hostInfo ← cons [.start, .string w.state.them.name, .start, .blob given, .string hostFp,
    .word (ascii "public"), .word (ascii "their")]
  if !(← checkErr env (pure hostInfo.isSome) .stackish
      "Failed to construct valid host name:key response.") then return false
  let myInfo ← cons [.start, .string w.state.me.name, .start, .blob clientPrv, .string clientPrvFp,
    .word (ascii "private"), .start, .blob clientPub, .string clientPubFp, .word (ascii "public"),
    .word (ascii "my")]
  if !(← checkErr env (pure myInfo.isSome) .stackish
      "Failed to construct valid client name:key response.") then return false
  checkErr env (proxyListenerSend env hostInfo myInfo) .listenerIo
    "Failed to write initial connect response to listener."

/-- `Proxy_final_verify`: its checks, before its exit label -/
def verifyChecks : Step D K S Bool := do
  if !(← checkErr env (test fun w => w.data.conn.host.name.isSome) .invalidHub
      "No name given for Hub after connect.") then return false
  if !(← checkErr env (test fun w => w.data.conn.client.name.isSome) .invalidClient
      "No client name configured, how'd you do that?") then return false
  if !(← checkErr env (test fun w => biseq w.data.conn.host.name w.state.them.name ≠ 0) .peerVerify
      "Expected Hub name and given Hub name do not match.") then return false
  if !(← checkErr env (test fun w => biseq w.data.conn.client.name w.state.me.name ≠ 0) .invalidClient
      "Final client name and given client name do not match.") then return false
  if !(← checkErr env keysMatch .peerVerify "Expected and given Hub keys do not match.") then
    return false
  verifyResponse env

/-- `Proxy_final_verify` -/
def proxyFinalVerify : Step D K S Bool := do
  if ← verifyChecks env then return true
  proxyDumpInvalidState env
  return false

end Proxy

end Utu.Client
