import Utu.Protocol.World

/-!
# The crypto functions

The functions of `crypto.c` line by line: every `check` that fails leaves at
the exit label of its function, and what a function returns there is whatever
its result variable holds at that moment.
-/

namespace Utu.Protocol
open Stackish LinkedForest Procedure
set_option autoImplicit false

/-! ## Message names -/

/-- `CRYPT_HEADER`: `header` -/
def headerName : Bytes := [104, 101, 97, 100, 101, 114]

/-- `CRYPT_ENV_MSG`: `env` -/
def envName : Bytes := [101, 110, 118]

/-- `CRYPT_INIT_MSG`: `init` -/
def initName : Bytes := [105, 110, 105, 116]

/-- `CRYPT_RECV_MSG`: `recv` -/
def recvName : Bytes := [114, 101, 99, 118]

/-- The text `[ header \n`. -/
def emptyHeader : Bytes := [91, 32] ++ headerName ++ [32, 10]

section Crypto
variable {D K S U : Type} (env : Env D K S)

/-! ## Randomness and keys -/

/-- `CryptState_rand`: a read that comes short is a failure. -/
def rand (length : Nat) : Call D K S U (Option Bytes) := do
  let w ← get
  match w.random with
  | [] => return none
  | raw :: rest =>
    set { w with random := rest }
    return if raw.length = length then some raw else none

/-- `check(CryptState_create_nonce(&state->me.nonce))` -/
def createNonce : Call D K S U Bool := do
  match ← rand nonceLength with
  | none => check false
  | some raw =>
    modifyState fun st => { st with me := { st.me with nonce := Nonce.ofRaw raw } }
    check true

/-- `CryptState_ecc_key_bstr` -/
def eccKeyBstr (key : K) (type : KeyType) : Call D K S U (Option Bytes) := do
  let keyData := env.ltc.eccExport type key
  if ← check keyData.isSome then return keyData
  return none

/-- `CryptState_bstr_ecc_key` -/
def bstrEccKey (src : Option Bytes) : Call D K S U (Option K) := do
  match src with
  | none => throw (.assertFailed "from cannot be NULL")
  | some blob =>
    let key := env.ltc.eccImport blob
    if ← check key.isSome then return key
    return none

/-- `CryptState_import_key` for `CRYPT_THEIR_KEY` -/
def importTheirKey (src : Option Bytes) : Call D K S U Bool := do
  match ← bstrEccKey env src with
  | none => return false
  | some key =>
    modifyState fun st => { st with them := { st.them with key } }
    return true

/-- The callback that confirms a key. It may do what it likes to its own data and to the state,
but the nodes in memory stay. -/
structure KeyConfirm (D K S U : Type) where
  run : Call D K S U Bool
  keeps : ∀ {w b w'}, Returns run w b w' → Extends w.heap w'.heap

/-- `CryptState_create_shared_key` -/
def createSharedKey (header : Nat) (nonced : Bool) (keyConfirm : KeyConfirm D K S U) :
    Call D K S U Bool := do
  let (rc, bound) ← decons env header false
    (if nonced then [.start, .blob, .number, .number, .word headerName]
      else [.start, .blob, .word headerName])
  modifyState fun st => if nonced then { st with them := { st.them with
    nonce := ⟨boundNumber bound 1 st.them.nonce.left, boundNumber bound 2 st.them.nonce.right⟩ } } else st
  if !(← check rc) then return false
  let w ← get
  let rc ← importTheirKey env (boundString w.heap bound 0 none)
  if !(← check rc) then return false
  let rc ← keyConfirm.run
  if !(← check rc) then return false
  let w ← get
  let secret := env.ltc.eccSharedSecret w.state.me.key w.state.them.key
  if !(← check secret.isSome) then return false
  let shared := env.ltc.rijndaelSetup secret
  modifyState fun st => { st with shared := shared.getD st.shared }
  if !(← check shared.isSome) then return false
  return true

/-! ## Packets -/

/-- `CryptState_encrypt_packet` -/
def encryptPacket (key : S) (header payload : Bytes) : Call D K S U (Option Nat) := do
  let w ← get
  let out := env.ltc.ccmMemory .encrypt key w.state.them.nonce header payload
  if !(← check out.isSome) then return none
  match out with
  | none => return none
  | some (text, tag) =>
    modifyState fun st => { st with them := { st.them with nonce := st.them.nonce.inc } }
    cons [.start, .blob (some text), .blob (some tag), .word envName]

/-- `CryptState_encrypt_node` -/
def encryptNode (key : S) (header : Bytes) (payload : Option Nat) : Call D K S U (Option Nat) := do
  let pbuf ← bstr env payload
  if !(← check true) then return none
  let msg ← encryptPacket env key header pbuf
  if !(← check msg.isSome) then return none
  return msg

/-- The format of an envelope: the tag first, since children are read in reverse. -/
def envelopeFormat : List Expect := [.start, .blob, .blob, .word envName]

def putString (h : Heap D) (node : Option Nat) (s : Bytes) : Heap D :=
  match node with
  | none => h
  | some a =>
    match h[a]? with
    | none => h
    | some cell => setData h a { cell.data with value := .blob (some s) }

/-- The part of `CryptState_decrypt_packet` behind its first `check`. The payload stays inside the
packet: it is decrypted in place, and so is the tag when the packet holds one blob only. -/
def openPayload (key : S) (header : Bytes) (bound : List (Bound D)) : Call D K S U (Option Bytes) := do
  let w ← get
  let payload := boundString w.heap bound 1 none
  match payload.bind (env.ltc.ccmMemory .decrypt key w.state.me.nonce header) with
  | none =>
    let _ ← check false
    return payload
  | some (text, tag) =>
    modify fun w => { w with heap := putString w.heap (boundNode bound 1) text }
    if !(← check true) then return some text
    modifyState fun st => { st with me := { st.me with nonce := st.me.nonce.inc } }
    let w ← get
    if !(← check (biseq (some tag) (boundString w.heap bound 0 none) ≠ 0)) then return none
    return boundString w.heap bound 1 none

/-- `CryptState_decrypt_packet` -/
def decryptPacket (key : S) (header : Bytes) (packet : Nat) : Call D K S U (Option Bytes) := do
  let (rc, bound) ← decons env packet false envelopeFormat
  let w ← get
  if !(← check rc) then return boundString w.heap bound 1 none
  openPayload env key header bound

/-- `CryptState_decrypt_node` -/
def decryptNode (key : S) (header : Bytes) (packet : Nat) : Call D K S U (Option Nat) := do
  match ← decryptPacket env key header packet with
  | none =>
    let _ ← check false
    return none
  | some pbuf =>
    if !(← check (0 < pbuf.length)) then return none
    let payload ← parse env pbuf
    let _ ← check payload.isSome
    return payload

/-! ## The receiver -/

/-- `CryptState_receiver_start`: R->I: N,PubR -/
def receiverStart : Call D K S U (Option Nat) := do
  if !(← createNonce) then return none
  let w ← get
  let key ← eccKeyBstr env w.state.me.key .pkPublic
  let msg ← cons [.start, .number w.state.me.nonce.right, .number w.state.me.nonce.left, .blob key,
    .word headerName]
  if !(← check msg.isSome) then return none
  return msg

/-- `CryptState_receiver_process_response`: R<-I: PubI, Er(I,Kir,Ni) -/
def receiverProcessResponse (hbuf : Bytes) (payload : Nat) (keyConfirm : KeyConfirm D K S U) :
    Call D K S U Bool := do
  match ← parse env hbuf with
  | none =>
    let _ ← check false
    return false
  | some header =>
    if !(← check true) then return false
    let rc ← createSharedKey env header false keyConfirm
    destroy (some header)
    if !(← check rc) then return false
    let w ← get
    match ← decryptNode env w.state.shared hbuf payload with
    | none =>
      let _ ← check false
      return false
    | some ident =>
      if !(← check true) then return false
      let (rc, bound) ← decons env ident true
        [.start, .number, .number, .blob, .string, .word initName]
      let w ← get
      modifyState fun st => { st with them := { st.them with
        nonce := ⟨boundNumber bound 0 st.them.nonce.left, boundNumber bound 1 st.them.nonce.right⟩
        session := boundString w.heap bound 2 st.them.session
        name := boundString w.heap bound 3 st.them.name } }
      destroy (some ident)
      if !(← check rc) then return false
      return true

/-- `CryptState_receiver_send_final`: R->I: Ei(R,Kri,Ni,Nr). The header is an output. -/
def receiverSendFinal : Call D K S U (Option Nat × Bytes) := do
  if !(← check true) then return (none, emptyHeader)
  if !(← createNonce) then return (none, emptyHeader)
  let w ← get
  let me := w.state.me
  let them := w.state.them
  let payload ← cons [.start, .string me.name, .blob me.session, .number them.nonce.right,
    .number them.nonce.left, .number me.nonce.right, .number me.nonce.left, .word recvName]
  if !(← check payload.isSome) then
    destroy payload
    return (none, emptyHeader)
  let msg ← encryptNode env w.state.shared emptyHeader payload
  let _ ← check msg.isSome
  destroy payload
  return (msg, emptyHeader)

/-- The exit of `CryptState_finalize_session`: the handshake secrets are wiped. -/
def wipeSession : Call D K S U Unit :=
  modifyState fun st => { st with
    me := { st.me with session := none }
    them := { st.them with session := none }
    shared := env.ltc.noSkey }

/-- `CryptState_finalize_session` -/
def finalizeSession : Call D K S U Bool := do
  let w ← get
  let mine := env.ltc.rijndaelSetup w.state.me.session
  modifyState fun st => { st with me := { st.me with skey := mine.getD st.me.skey } }
  if !(← check mine.isSome) then
    wipeSession env
    return mine.isSome
  let theirs := env.ltc.rijndaelSetup w.state.them.session
  modifyState fun st => { st with them := { st.them with skey := theirs.getD st.them.skey } }
  let _ ← check theirs.isSome
  wipeSession env
  return theirs.isSome

/-- `CryptState_receiver_done`: R<-I: Er(Nr) -/
def receiverDone (header : Bytes) (msg : Nat) : Call D K S U Bool := do
  let w ← get
  match ← decryptNode env w.state.shared header msg with
  | none =>
    let _ ← check false
    return false
  | some payload =>
    if !(← check true) then
      destroy (some payload)
      return false
    let (rc, bound) ← decons env payload false [.start, .number, .number, .word initName]
    if !(← check rc) then
      destroy (some payload)
      return rc
    let expected : Nonce := ⟨boundNumber bound 0 0, boundNumber bound 1 0⟩
    let w ← get
    if !(← check (w.state.me.nonce = expected.inc)) then
      destroy (some payload)
      return false
    let rc ← finalizeSession env
    let _ ← check rc
    destroy (some payload)
    return rc

/-! ## The initiator -/

/-- `CryptState_initiator_start`: I<-R: N,PubR; I->R: PubI, Er(I,Kir,Ni). The header is an output. -/
def initiatorStart (recvhdr : Nat) (keyConfirm : KeyConfirm D K S U) :
    Call D K S U (Option Nat × Option Bytes) := do
  let rc ← createSharedKey env recvhdr true keyConfirm
  if !(← check rc) then return (none, none)
  let w ← get
  let eccKey ← eccKeyBstr env w.state.me.key .pkPublic
  if !(← check eccKey.isSome) then return (none, none)
  let header ← cons [.start, .blob eccKey, .word headerName]
  let hbuf ← bstr env header
  if !(← createNonce) then
    destroy header
    return (none, some hbuf)
  let w ← get
  let me := w.state.me
  let payload ← cons [.start, .string me.name, .blob me.session, .number me.nonce.right,
    .number me.nonce.left, .word initName]
  if !(← check payload.isSome) then
    destroy header
    destroy payload
    return (none, some hbuf)
  let msg ← encryptNode env w.state.shared hbuf payload
  let _ ← check msg.isSome
  destroy header
  destroy payload
  return (msg, some hbuf)

/-- The part of `CryptState_initiator_process_response` that has a payload -/
def takeResponse (payload : Nat) : Call D K S U Bool := do
  let (rc, bound) ← decons env payload true
    [.start, .number, .number, .number, .number, .blob, .string, .word recvName]
  let w ← get
  modifyState fun st => { st with them := { st.them with
    nonce := ⟨boundNumber bound 0 st.them.nonce.left, boundNumber bound 1 st.them.nonce.right⟩
    session := boundString w.heap bound 4 st.them.session
    name := boundString w.heap bound 5 st.them.name } }
  let w ← get
  if !(← check w.state.them.name.isSome) then
    destroy (some payload)
    return rc
  if !(← check rc) then
    destroy (some payload)
    return rc
  let meNonce : Nonce := ⟨boundNumber bound 2 0, boundNumber bound 3 0⟩
  let _ ← check (w.state.me.nonce = meNonce.inc)
  destroy (some payload)
  return rc

/-- `CryptState_initiator_process_response`: I<-R: Ei(R,Kri,Ni,Nr) -/
def initiatorProcessResponse (header : Bytes) (msg : Nat) : Call D K S U Bool := do
  let w ← get
  match ← decryptNode env w.state.shared header msg with
  | none =>
    let _ ← check false
    return false
  | some payload =>
    if !(← check true) then
      destroy (some payload)
      return false
    takeResponse env payload

/-- `CryptState_initiator_send_final`: I->R: Er(Nr). The header is an output. -/
def initiatorSendFinal : Call D K S U (Option Nat × Bytes) := do
  let w ← get
  let payload ← cons [.start, .number w.state.them.nonce.right, .number w.state.them.nonce.left,
    .word initName]
  if !(← check payload.isSome) then
    destroy payload
    return (none, emptyHeader)
  let msg ← encryptNode env w.state.shared emptyHeader payload
  if !(← check msg.isSome) then
    destroy payload
    return (msg, emptyHeader)
  let rc ← finalizeSession env
  let _ ← check rc
  destroy payload
  return (msg, emptyHeader)

/-! ## Signatures -/

/-- The format of a signed node and its three group names:
`[ [ 'payload' 'hash' 'signature' message [ 'pubkey' 'name' identity signed`. -/
def signedFormat : List Expect :=
  [.start, .start, .blob, .blob, .word [105, 100, 101, 110, 116, 105, 116, 121],
    .start, .blob, .blob, .blob, .word [109, 101, 115, 115, 97, 103, 101],
    .word [115, 105, 103, 110, 101, 100]]

/-- `CryptState_verify_signature`: the node that was signed and `*sig_stat`, which stays as it is
unless the signature was looked at. The key of the message is an output too. -/
def verifySignature (name : Option Bytes) (input : Nat) (sigStat : Bool) :
    Call D K S U (Option Nat × Bool × Option K) := do
  let (rc, bound) ← decons env input false signedFormat
  let w ← get
  let part := fun i => boundString w.heap bound i none
  if !(← check rc) then return (none, sigStat, none)
  if !(← check (biseq (part 0) name ≠ 0)) then return (none, sigStat, none)
  match ← bstrEccKey env (part 1) with
  | none =>
    let _ ← check false
    return (none, sigStat, none)
  | some publicKey =>
    if !(← check true) then return (none, sigStat, some publicKey)
    match env.ltc.eccVerifyHash (part 2) (part 3) publicKey with
    | none =>
      let _ ← check false
      return (none, sigStat, some publicKey)
    | some stat =>
      if !(← check true) then return (none, stat, some publicKey)
      match part 4 with
      | none => throw (.assertFailed "buf cannot be NULL")
      | some payload =>
        let result ← parse env payload
        let _ ← check result.isSome
        return (result, stat, some publicKey)

end Crypto

/-! ## Rules -/

section Rules
variable {D K S U : Type} {env : Env D K S} {w w' : World D K S U}

theorem returns_rand {raw : Bytes} {rest : List Bytes} (hRandom : w.random = raw :: rest) :
    Returns (rand raw.length) w (some raw) { w with random := rest } := by
  refine returns_bind.mpr ⟨_, _, returns_get.mpr ⟨rfl, rfl⟩, ?_⟩
  simp only [hRandom, if_true]
  exact returns_bind.mpr ⟨(), _, returns_set.mpr rfl, returns_pure.mpr ⟨rfl, rfl⟩⟩

theorem returns_exportKey {key : K} {type : KeyType} {blob : Option Bytes} :
    Returns (eccKeyBstr env key type) w blob w' ↔
      blob = (if w.errno = 0 then env.ltc.eccExport type key else none) ∧ w' = w.clear := by
  simp only [eccKeyBstr, returns_bind, returns_check, returns_ite, returns_pure]
  cases hKey : env.ltc.eccExport type key <;> by_cases hErrno : w.errno = 0 <;> simp [hErrno]

theorem returns_bstrEccKey {src : Option Bytes} {key : Option K} :
    Returns (bstrEccKey env src) w key w' ↔ ∃ blob, src = some blob ∧
      key = (if w.errno = 0 then env.ltc.eccImport blob else none) ∧ w' = w.clear := by
  cases src with
  | none =>
    simp only [bstrEccKey, returns_throw, false_iff]
    rintro ⟨blob, h, -⟩
    cases h
  | some blob =>
    simp only [bstrEccKey, returns_bind, returns_check, returns_ite, returns_pure]
    cases hImport : env.ltc.eccImport blob <;> by_cases hErrno : w.errno = 0 <;>
      simp [hImport, hErrno]

end Rules

end Utu.Protocol
