import Utu.Protocol.Letters
import Utu.Protocol.Initiator
import Utu.Stackish.Dump

/-!
# The rounds of the handshake

What each of the seven calls does when the message it gets is the one that was
sent: the message it gives, and its state afterwards as the state before with
the key met, a nonce drawn, a nonce used up, or what the letter said.
-/

namespace Utu.Protocol
open Stackish LinkedForest Procedure
set_option autoImplicit false

variable {D K S U : Type} {env : Env D K S} {w : World D K S U}

/-! ## The state -/

/-- `CryptState_create_nonce(&state->me.nonce)` -/
def CryptState.draw (st : CryptState K S) (n : Nonce) : CryptState K S := { st with me := { st.me with nonce := n } }

/-- The other side's key, the nonce that came with it, and the key that is shared with it. -/
def CryptState.meet (st : CryptState K S) (key : K) (nonce : Nonce) (shared : S) : CryptState K S :=
  { st with them := { st.them with key, nonce }, shared }

/-- The session keys are scheduled and the secrets of the handshake wiped. -/
def CryptState.finalize (st : CryptState K S) (mine theirs wiped : S) : CryptState K S where
  me := { st.me with skey := mine, session := none }
  them := { st.them with skey := theirs, session := none }
  shared := wiped

/-! ## Parts of the calls -/

/-- A callback that confirms every key and keeps to its own data. -/
def KeyConfirm.Confirms (keyConfirm : KeyConfirm D K S U) : Prop :=
  ∀ w : World D K S U, w.errno = 0 → ∃ heap data, Returns keyConfirm.run w true { w with heap, data }

theorem returns_createNonce {raw : Bytes} {rest : List Bytes} (hRandom : w.random = raw :: rest)
    (hRaw : raw.length = nonceLength) :
    Returns createNonce w (w.errno == 0)
      (World.clear { w with random := rest, state := w.state.draw (Nonce.ofRaw raw) }) := by
  refine returns_bind.mpr ⟨some raw, { w with random := rest }, ?_, ?_⟩
  · rw [← hRaw]
    exact returns_rand hRandom
  · refine returns_bind.mpr ⟨(), _, returns_modifyState.mpr rfl, ?_⟩
    exact returns_check.mpr ⟨rfl, rfl⟩

theorem returns_drawNonce (hErrno : w.errno = 0) {raw : Bytes} {rest : List Bytes} (hRandom : w.random = raw :: rest)
    (hRaw : raw.length = nonceLength) :
    Returns createNonce w true { w with random := rest, state := w.state.draw (Nonce.ofRaw raw) } := by
  have hDraw := returns_createNonce hRandom hRaw
  have hClear := World.clear_of_errno (w := { w with random := rest, state := w.state.draw (Nonce.ofRaw raw) }) hErrno
  have hZero : (w.errno == 0) = true := by rw [hErrno]; rfl
  rw [hClear, hZero] at hDraw
  exact hDraw

theorem returns_destroyTree {node : Nat} {t : Stackish.Tree D} (hTree : w.Holds node t)
    (hHeight : t.height < maxTreeDeep) : Returns (destroy (some node)) w () w :=
  returns_destroy.mpr ⟨(Stackish.Represents.releasable_iff hTree).mpr hHeight, rfl⟩

/-- The key in the header is met when it can be imported and the callback confirms it. -/
theorem returns_createSharedKey {keyConfirm : KeyConfirm D K S U} (hConfirms : keyConfirm.Confirms)
    (hErrno : w.errno = 0)
    {header : Nat} (nonced : Bool) {bound : List (Bound D)} {pub secret : Bytes} {pk : K} {shared : S} {nonce : Nonce}
    (hDecons : Returns (decons env header false
      (if nonced then [.start, .blob, .number, .number, .word headerName] else [.start, .blob, .word headerName]))
      w (true, bound) w)
    (hNonce : nonce = if nonced then
      ⟨boundNumber bound 1 w.state.them.nonce.left, boundNumber bound 2 w.state.them.nonce.right⟩
      else w.state.them.nonce)
    (hPub : boundString w.heap bound 0 none = some pub) (hImport : env.ltc.eccImport pub = some pk)
    (hSecret : env.ltc.eccSharedSecret w.state.me.key pk = some secret)
    (hShared : env.ltc.rijndaelSetup (some secret) = some shared) :
    ∃ heap data, Returns (createSharedKey env header nonced keyConfirm) w true
        { w with heap, data, state := w.state.meet pk nonce shared } ∧ Extends w.heap heap := by
  let w₁ : World D K S U := { w with state := { w.state with them := { w.state.them with nonce } } }
  let w₂ : World D K S U := { w with state := { w.state with them := { w.state.them with nonce, key := pk } } }
  have hClear : w₁.clear = w₁ := World.clear_of_errno (w := w₁) hErrno
  obtain ⟨heap, data, hConfirm⟩ := hConfirms w₂ hErrno
  have hExt : Extends w.heap heap := keyConfirm.keeps hConfirm
  have hImported : Returns (importTheirKey env (some pub)) w₁ true w₂ := by
    refine returns_bind.mpr ⟨some pk, w₁, returns_bstrEccKey.mpr ⟨pub, rfl, ?_, hClear.symm⟩, ?_⟩
    · rw [if_pos (show w₁.errno = 0 from hErrno), hImport]
    · exact returns_bind.mpr ⟨(), w₂, returns_modifyState.mpr rfl, returns_pure.mpr ⟨rfl, rfl⟩⟩
  refine ⟨heap, data, ?_, hExt⟩
  refine returns_bind.mpr ⟨_, _, hDecons, ?_⟩
  refine returns_bind.mpr ⟨(), w₁, returns_modifyState.mpr ?_, ?_⟩
  · rw [show w₁ = { w with state := { w.state with them := { w.state.them with nonce } } } from rfl, hNonce]
    cases nonced <;> rfl
  refine returns_bind.mpr ⟨true, w₁, returns_check_true rfl hErrno, ?_⟩
  refine returns_bind.mpr ⟨w₁, w₁, returns_get.mpr ⟨rfl, rfl⟩, ?_⟩
  rw [show boundString w₁.heap bound 0 none = some pub from hPub]
  refine returns_bind.mpr ⟨true, w₂, hImported, ?_⟩
  refine returns_bind.mpr ⟨true, w₂, returns_check_true rfl hErrno, ?_⟩
  refine returns_bind.mpr ⟨true, _, hConfirm, ?_⟩
  refine returns_bind.mpr ⟨true, _, returns_check_true rfl hErrno, ?_⟩
  refine returns_bind.mpr ⟨_, _, returns_get.mpr ⟨rfl, rfl⟩, ?_⟩
  rw [show env.ltc.eccSharedSecret w₂.state.me.key w₂.state.them.key = some secret from hSecret]
  refine returns_bind.mpr ⟨true, _, returns_check_true rfl hErrno, ?_⟩
  rw [hShared]
  refine returns_bind.mpr ⟨(), _, returns_modifyState.mpr rfl, ?_⟩
  refine returns_bind.mpr ⟨true, _, returns_check_true rfl hErrno, ?_⟩
  exact returns_pure.mpr ⟨rfl, rfl⟩

theorem returns_finalizeSession (hErrno : w.errno = 0) {mine theirs : S}
    (hMine : env.ltc.rijndaelSetup w.state.me.session = some mine)
    (hTheirs : env.ltc.rijndaelSetup w.state.them.session = some theirs) :
    Returns (finalizeSession env) w true { w with state := w.state.finalize mine theirs env.ltc.noSkey } := by
  refine returns_bind.mpr ⟨w, w, returns_get.mpr ⟨rfl, rfl⟩, ?_⟩
  rw [hMine, hTheirs]
  refine returns_bind.mpr ⟨(), _, returns_modifyState.mpr rfl, ?_⟩
  refine returns_bind.mpr ⟨true, _, returns_check_true rfl hErrno, ?_⟩
  refine returns_bind.mpr ⟨(), _, returns_modifyState.mpr rfl, ?_⟩
  refine returns_bind.mpr ⟨true, _, returns_check_true rfl hErrno, ?_⟩
  exact returns_bind.mpr ⟨(), _, returns_modifyState.mpr rfl, returns_pure.mpr ⟨rfl, rfl⟩⟩

/-! ## The calls -/

section Start
variable {raw pub : Bytes} {rest : List Bytes}

/-- R->I: N,PubR -/
theorem returns_receiverStart (hErrno : w.errno = 0) (hRandom : w.random = raw :: rest)
    (hRaw : raw.length = nonceLength)
    (hPub : env.ltc.eccExport .pkPublic w.state.me.key = some pub) :
    ∃ node heap, Returns (receiverStart env) w (some node)
        { w with heap, random := rest, state := w.state.draw (Nonce.ofRaw raw) } ∧
      Represents heap none (some node) ((helloElems (Nonce.ofRaw raw) pub).tree (some headerName)) := by
  let w₁ : World D K S U := { w with random := rest, state := w.state.draw (Nonce.ofRaw raw) }
  have hClear : w₁.clear = w₁ := World.clear_of_errno (w := w₁) hErrno
  obtain ⟨node, heap, hCons, hTree, -⟩ := returns_cons_message (w := w₁) hErrno (helloElems (Nonce.ofRaw raw) pub)
    (some headerName) (by simp [helloElems, Elems.format, Leaf.piece, Piece.makesNew])
  refine ⟨node, heap, ?_, hTree⟩
  refine returns_bind.mpr ⟨true, w₁, returns_drawNonce hErrno hRandom hRaw, ?_⟩
  refine returns_bind.mpr ⟨w₁, w₁, returns_get.mpr ⟨rfl, rfl⟩, ?_⟩
  refine returns_bind.mpr ⟨some pub, w₁, returns_exportKey.mpr ⟨?_, hClear.symm⟩, ?_⟩
  · rw [if_pos (show w₁.errno = 0 from hErrno)]
    exact hPub.symm
  refine returns_bind.mpr ⟨some node, _, hCons, ?_⟩
  exact returns_bind.mpr ⟨true, _, returns_check_true rfl hErrno, returns_pure.mpr ⟨rfl, rfl⟩⟩

/-- Under a stale `errno` the receiver does not start. -/
theorem receiverStart_stale (hErrno : w.errno ≠ 0) (hRandom : w.random = raw :: rest) (hRaw : raw.length = nonceLength)
    {node : Nat} {w' : World D K S U} : ¬ Returns (receiverStart env) w (some node) w' := by
  intro h
  obtain ⟨b, w₁, hDraw, h₁⟩ := returns_bind.mp h
  obtain ⟨rfl, rfl⟩ := hDraw.unique (returns_createNonce hRandom hRaw)
  have hFalse : (w.errno == 0) = false := beq_eq_false_iff_ne.mpr hErrno
  rw [hFalse] at h₁
  cases (returns_pure.mp h₁).1

/-- The exported key can be imported, and a key is shared with its owner. -/
def Meets (ltc : Ltc K S) (mine : K) (pub : Bytes) (pk : K) (shared : S) : Prop :=
  ltc.eccImport pub = some pk ∧
    ∃ secret, ltc.eccSharedSecret mine pk = some secret ∧ ltc.rijndaelSetup (some secret) = some shared

variable {keyConfirm : KeyConfirm D K S U} {recvhdr : Nat} {n : Nonce} {pk : K} {shared : S}

/-- The initiator meets the receiver. -/
theorem returns_meetReceiver (hConfirms : keyConfirm.Confirms) (hErrno : w.errno = 0)
    (hTree : w.Holds recvhdr ((helloElems n pub).tree (some headerName)))
    (hMeets : Meets env.ltc w.state.me.key pub pk shared) :
    ∃ heap data, Returns (createSharedKey env recvhdr true keyConfirm) w true
      { w with heap, data, state := w.state.meet pk n shared } ∧ Extends w.heap heap := by
  obtain ⟨hImport, secret, hSecret, hShared⟩ := hMeets
  obtain ⟨bound, hDecons, hBound⟩ := returns_decons_message env hErrno false (by simp [helloElems])
    (by simp [helloElems, Elems.Full]) hTree
  refine returns_createSharedKey hConfirms hErrno true hDecons ?_ ?_ hImport hSecret hShared
  · rw [boundNumber_stores hBound rfl, boundNumber_stores hBound rfl]
    rfl
  · exact boundString_stores hBound (.inr rfl) none

/-- I<-R: N,PubR;  I->R: PubI, Er(I,Kir,Ni) -/
theorem returns_initiatorStart (hCcm : SoundCcm env.ltc) (hConfirms : keyConfirm.Confirms) (hErrno : w.errno = 0)
    (hTree : w.Holds recvhdr ((helloElems n pub).tree (some headerName)))
    (hMeets : Meets env.ltc w.state.me.key pub pk shared) {own : Bytes}
    (hOwn : env.ltc.eccExport .pkPublic w.state.me.key = some own) (hSize : own.length ≤ eccBufSize)
    {name : PeerName} {session : Bytes} (hName : w.state.me.name = some name.text)
    (hSession : w.state.me.session = some session) (hLength : session.length = keyLength)
    (hRandom : w.random = raw :: rest) (hRaw : raw.length = nonceLength) :
    ∃ msg heap data t, Returns (initiatorStart env recvhdr keyConfirm) w
        (some msg, some (headerDocument own : Document D).encode)
        { w with heap, data, random := rest, state := ((w.state.meet pk n shared).draw (Nonce.ofRaw raw)).advance } ∧
      Represents heap none (some msg) t ∧
      Seals env.ltc shared n (headerDocument own : Document D).encode
        (identityDocument name.sent session (Nonce.ofRaw raw) : Document D).encode t := by
  obtain ⟨heap₁, data, hMeet, -⟩ := returns_meetReceiver hConfirms hErrno hTree hMeets
  let w₁ : World D K S U := { w with heap := heap₁, data, state := w.state.meet pk n shared }
  have hClear : w₁.clear = w₁ := World.clear_of_errno (w := w₁) hErrno
  obtain ⟨header, heap₂, hHeader, hHeaderTree, -⟩ := returns_cons_message (w := w₁) hErrno (headerElems own)
    (some headerName) (by simp [headerElems, Elems.format, Leaf.piece, Piece.makesNew])
  let w₂ : World D K S U := { w₁.grown heap₂ with random := rest, state := w₁.state.draw (Nonce.ofRaw raw) }
  obtain ⟨payload, heap₃, hPayload, hPayloadTree, hExt₃⟩ := returns_cons_message (w := w₂) hErrno
    (letterElems (some name) session [Nonce.ofRaw raw]) (some initName) (letterElems_makesNew _ _ _)
  have hText := nodeBstr_letter env.lib (shortLetter_init hLength (Nonce.ofRaw raw)) hPayloadTree
  obtain ⟨msg, heap, t, hEncrypt, hMsg, hExt, hSeals⟩ := returns_encryptNode (w := w₂.grown heap₃) hCcm hErrno shared
    (headerDocument own : Document D).encode hText
  let w₃ : World D K S U := { w₂ with heap, state := w₂.state.advance }
  have hDestroyHeader : Returns (destroy (some header)) w₃ () w₃ := by
    refine returns_destroyTree (t := (headerElems own).tree (some headerName)) ?_ ?_
    · exact Represents.extend hHeaderTree (hExt₃.trans hExt)
    · simp [headerElems, Elems.tree, Elems.kids, Forest.height, maxTreeDeep]
  have hDestroyPayload : Returns (destroy (some payload)) w₃ () w₃ := by
    refine returns_destroyTree (t := (letterElems (some name) session [Nonce.ofRaw raw]).tree (some initName)) ?_ ?_
    · exact Represents.extend hPayloadTree hExt
    · simp [letterElems, nonceElems, Elems.tree, Elems.kids, Forest.height, maxTreeDeep]
  refine ⟨msg, heap, data, t, ?_, hMsg, hSeals⟩
  refine returns_bind.mpr ⟨true, w₁, hMeet, ?_⟩
  refine returns_bind.mpr ⟨true, w₁, returns_check_true rfl hErrno, ?_⟩
  refine returns_bind.mpr ⟨w₁, w₁, returns_get.mpr ⟨rfl, rfl⟩, ?_⟩
  refine returns_bind.mpr ⟨some own, w₁, returns_exportKey.mpr ⟨?_, hClear.symm⟩, ?_⟩
  · rw [if_pos (show w₁.errno = 0 from hErrno)]
    exact hOwn.symm
  refine returns_bind.mpr ⟨true, w₁, returns_check_true rfl hErrno, ?_⟩
  refine returns_bind.mpr ⟨some header, _, hHeader, ?_⟩
  refine returns_bind.mpr ⟨_, _, returns_bstr_document (t := headerDocument own) (fits_header hSize) hHeaderTree, ?_⟩
  refine returns_bind.mpr ⟨true, w₂, returns_drawNonce (w := w₁.grown heap₂) hErrno hRandom hRaw, ?_⟩
  refine returns_bind.mpr ⟨w₂, w₂, returns_get.mpr ⟨rfl, rfl⟩, ?_⟩
  dsimp only
  rw [show w₂.state.me.name = some name.text from hName, show w₂.state.me.session = some session from hSession]
  refine returns_bind.mpr ⟨some payload, _, hPayload, ?_⟩
  refine returns_bind.mpr ⟨true, _, returns_check_true rfl hErrno, ?_⟩
  refine returns_bind.mpr ⟨some msg, w₃, hEncrypt, ?_⟩
  refine returns_bind.mpr ⟨true, w₃, returns_check_true rfl hErrno, ?_⟩
  refine returns_bind.mpr ⟨(), w₃, hDestroyHeader, ?_⟩
  exact returns_bind.mpr ⟨(), w₃, hDestroyPayload, returns_pure.mpr ⟨rfl, rfl⟩⟩

/-- Under a stale `errno` the initiator does not start. -/
theorem initiatorStart_stale (hErrno : w.errno ≠ 0) {t : Stackish.Tree D} (hTree : w.Holds recvhdr t) {msg : Nat}
    {hbuf : Option Bytes} {w' : World D K S U} :
    ¬ Returns (initiatorStart env recvhdr keyConfirm) w (some msg, hbuf) w' := by
  intro h
  obtain ⟨keyed, -, hKey, -⟩ := initiatorStart_nonce h
  obtain ⟨⟨rc, bound⟩, w₁, hRun, h₁⟩ := returns_bind.mp hKey
  obtain ⟨hDecons, -⟩ := returns_decons.mp hRun
  obtain ⟨-, w₂, -, h₂⟩ := returns_bind.mp h₁
  rcases returns_checkElse.mp h₂ with ⟨-, hExit⟩ | ⟨hPass, -⟩
  · cases (returns_pure.mp hExit).1
  obtain rfl := (Bool.and_eq_true_iff.mp hPass).1
  exact hErrno ((nodeDecons_fields env.lib hTree false _ w.errno).1 bound hDecons).1

/-- The receiver meets the initiator. -/
theorem returns_meetInitiator (hConfirms : keyConfirm.Confirms) (hErrno : w.errno = 0) {header : Nat}
    (hTree : w.Holds header (headerDocument pub).tree) (hMeets : Meets env.ltc w.state.me.key pub pk shared) :
    ∃ heap data, Returns (createSharedKey env header false keyConfirm) w true
      { w with heap, data, state := w.state.meet pk w.state.them.nonce shared } ∧ Extends w.heap heap := by
  obtain ⟨hImport, secret, hSecret, hShared⟩ := hMeets
  have hTree' : w.Holds header ((headerElems pub).tree (some headerName)) := hTree
  obtain ⟨bound, hDecons, hBound⟩ := returns_decons_message env hErrno false (by simp [headerElems])
    (by simp [headerElems, Elems.Full]) hTree'
  refine returns_createSharedKey hConfirms hErrno false hDecons rfl ?_ hImport hSecret hShared
  exact boundString_stores hBound (.inr rfl) none

end Start

section Identity
variable {pub session : Bytes} {packet : Nat} {t : Stackish.Tree D} {n : Nonce} {pk : K} {shared : S}
  {keyConfirm : KeyConfirm D K S U}

/-- The shared key and what the packet holds, up to the point where it is taken apart. -/
theorem settles_openIdentity (hCcm : SoundCcm env.ltc) (hConfirms : keyConfirm.Confirms) (hErrno : w.errno = 0)
    (hTree : w.Holds packet t) (hMeets : Meets env.ltc w.state.me.key pub pk shared) (hSize : pub.length ≤ eccBufSize)
    {doc : Document D} (hFits : Fits doc.tree)
    (hSeals : Seals env.ltc shared w.state.me.nonce (headerDocument pub : Document D).encode doc.encode t) :
    ∃ header heap₁ heap₂ data ident heap,
      Settles (fun fuel => parse { env with fuel } (headerDocument pub : Document D).encode) w (some header)
        (w.grown heap₁) ∧
      Returns (createSharedKey env header false keyConfirm) (w.grown heap₁) true
        { w with heap := heap₂, data, state := w.state.meet pk w.state.them.nonce shared } ∧
      Represents heap₂ none (some header) (headerDocument pub : Document D).tree ∧
      Settles (fun fuel => decryptNode { env with fuel } shared (headerDocument pub : Document D).encode packet)
        { w with heap := heap₂, data, state := w.state.meet pk w.state.them.nonce shared } (some ident)
        { w with heap, data, state := (w.state.meet pk w.state.them.nonce shared).bump } ∧
      Represents heap none (some ident) doc.tree := by
  obtain ⟨header, heap₁, hParse, hHeader, hExt₁⟩ := settles_parse_document env hErrno
    (t := headerDocument pub) (fits_header hSize)
  obtain ⟨heap₂, data, hMeet, hExt₂⟩ := returns_meetInitiator (w := w.grown heap₁) hConfirms hErrno hHeader hMeets
  let w₂ : World D K S U := { w with heap := heap₂, data, state := w.state.meet pk w.state.them.nonce shared }
  have hPacket : w₂.Holds packet t := Represents.extend hTree (hExt₁.trans hExt₂)
  obtain ⟨ident, heap, hDecrypt, hIdent⟩ := settles_decryptNode (w := w₂) hCcm hErrno hPacket hFits hSeals
  exact ⟨header, heap₁, heap₂, data, ident, heap, hParse, hMeet, Represents.extend hHeader hExt₂, hDecrypt, hIdent⟩

/-- R<-I: PubI, Er(I,Kir,Ni) -/
theorem settles_receiverProcessResponse (hCcm : SoundCcm env.ltc) (hConfirms : keyConfirm.Confirms)
    (hErrno : w.errno = 0) (hTree : w.Holds packet t) (hMeets : Meets env.ltc w.state.me.key pub pk shared)
    (hSize : pub.length ≤ eccBufSize) {name : PeerName} (hFits : name.Fits) (hLength : session.length = keyLength)
    (hSeals : Seals env.ltc shared w.state.me.nonce (headerDocument pub : Document D).encode
      (identityDocument (some name) session n : Document D).encode t) :
    ∃ heap data, Settles
      (fun fuel => receiverProcessResponse { env with fuel } (headerDocument pub : Document D).encode packet keyConfirm)
      w true { w with heap, data, state :=
        (w.state.meet pk w.state.them.nonce shared).bump.learn n (some session) (some name.text) } := by
  have hLetter : Fits (identityDocument (some name) session n : Document D).tree :=
    fits_letter (shortLetter_init hLength n) (by rintro m ⟨⟩; exact hFits)
  obtain ⟨header, heap₁, heap₂, data, ident, heap, hParse, hMeet, hHeader, hDecrypt, hIdent⟩ :=
    settles_openIdentity hCcm hConfirms hErrno hTree hMeets hSize hLetter hSeals
  let w₂ : World D K S U := { w with heap := heap₂, data, state := w.state.meet pk w.state.them.nonce shared }
  let w₃ : World D K S U := { w with heap, data, state := (w.state.meet pk w.state.them.nonce shared).bump }
  have hIdent' : w₃.Holds ident ((letterElems (some name) session [n]).tree (some initName)) := hIdent
  obtain ⟨bound, hDecons, hBound⟩ := returns_decons_message env (w := w₃) hErrno true (by simp [letterElems])
    (letterElems_full _ _ _) hIdent'
  have hDestroyHeader : Returns (destroy (some header)) w₂ () w₂ := by
    refine returns_destroyTree hHeader ?_
    simp [headerDocument, headerElems, Elems.tree, Elems.kids, Forest.height, maxTreeDeep]
  let w₄ : World D K S U := { w₃ with state := w₃.state.learn n (some session) (some name.text) }
  have hDestroyIdent : Returns (destroy (some ident)) w₄ () w₄ := by
    refine returns_destroyTree (t := (letterElems (some name) session [n]).tree (some initName)) hIdent' ?_
    simp [letterElems, nonceElems, Elems.tree, Elems.kids, Forest.height, maxTreeDeep]
  refine ⟨heap, data, ?_⟩
  refine hParse.bind (settles_checkPass rfl hErrno ?_)
  refine Returns.settles hMeet ?_
  refine hDestroyHeader.settles (settles_checkPass rfl hErrno ?_)
  refine (returns_get.mpr ⟨rfl, rfl⟩).settles ?_
  refine hDecrypt.bind (settles_checkPass rfl hErrno ?_)
  refine Returns.settles hDecons ?_
  refine (returns_get.mpr ⟨rfl, rfl⟩).settles ?_
  have hLearn : Returns (modifyState fun st => { st with them := { st.them with
      nonce := ⟨boundNumber bound 0 st.them.nonce.left, boundNumber bound 1 st.them.nonce.right⟩
      session := boundString w₃.heap bound 2 st.them.session
      name := boundString w₃.heap bound 3 st.them.name } }) w₃ () w₄ := by
    have hSession : ∀ old, boundString w₃.heap bound 2 old = some session := boundString_stores hBound (.inr rfl)
    have hName : ∀ old, boundString w₃.heap bound 3 old = some name.text := boundString_stores hBound (.inl rfl)
    have hLeft : ∀ old, boundNumber bound 0 old = n.left := boundNumber_stores hBound rfl
    have hRight : ∀ old, boundNumber bound 1 old = n.right := boundNumber_stores hBound rfl
    refine returns_modifyState.mpr ?_
    simp only [hSession, hName, hLeft, hRight]
    rfl
  refine hLearn.settles ?_
  exact hDestroyIdent.settles (settles_checkPass rfl hErrno settles_pure)

/-- An identity without a name is not taken. -/
theorem receiverProcessResponse_nameless (hCcm : SoundCcm env.ltc) (hConfirms : keyConfirm.Confirms)
    (hErrno : w.errno = 0) (hTree : w.Holds packet t) (hMeets : Meets env.ltc w.state.me.key pub pk shared)
    (hSize : pub.length ≤ eccBufSize) (hLength : session.length = keyLength)
    (hSeals : Seals env.ltc shared w.state.me.nonce (headerDocument pub : Document D).encode
      (identityDocument none session n : Document D).encode t) {w' : World D K S U} :
    ¬ Settles
      (fun fuel => receiverProcessResponse { env with fuel } (headerDocument pub : Document D).encode packet keyConfirm)
      w true w' := by
  have hLetter : Fits (identityDocument none session n : Document D).tree :=
    fits_letter (shortLetter_init hLength n) (by simp)
  obtain ⟨header, heap₁, heap₂, data, ident, heap, ⟨a, hParse⟩, hMeet, -, ⟨b, hDecrypt⟩, hIdent⟩ :=
    settles_openIdentity hCcm hConfirms hErrno hTree hMeets hSize hLetter hSeals
  rintro ⟨c, h⟩
  let fuel := max a (max b c)
  obtain ⟨-, hdr, w₁, w₂, ident', w₃, hParse', hMeet', hDecrypt', -, bound, hDecons⟩ :=
    receiverProcessResponse_true (h fuel (by omega))
  obtain ⟨hHdr, rfl⟩ := (hParse fuel (by omega)).unique hParse'
  cases hHdr
  rw [World.clear_of_errno (w := w.grown heap₁) hErrno] at hMeet'
  obtain ⟨-, rfl⟩ := hMeet'.unique hMeet
  rw [World.clear_of_errno (by exact hErrno)] at hDecrypt'
  obtain ⟨hNode, rfl⟩ := hDecrypt'.unique (hDecrypt fuel (by omega))
  cases hNode
  obtain ⟨-, fields, hFields, -⟩ := (nodeDecons_fields env.lib hIdent true identityFormat 0).1 bound hDecons
  cases hFields

end Identity

section Response
variable {raw session : Bytes} {rest : List Bytes} {name : PeerName}

/-- R->I: Ei(R,Kri,Ni,Nr) -/
theorem returns_receiverSendFinal (hCcm : SoundCcm env.ltc) (hErrno : w.errno = 0)
    (hName : w.state.me.name = some name.text) (hSession : w.state.me.session = some session)
    (hLength : session.length = keyLength) (hRandom : w.random = raw :: rest) (hRaw : raw.length = nonceLength) :
    ∃ msg heap t, Returns (receiverSendFinal env) w (some msg, emptyHeader)
        { w with heap, random := rest, state := (w.state.draw (Nonce.ofRaw raw)).advance } ∧
      Represents heap none (some msg) t ∧
      Seals env.ltc w.state.shared w.state.them.nonce emptyHeader
        (responseDocument name.sent session w.state.them.nonce (Nonce.ofRaw raw) : Document D).encode t := by
  let w₁ : World D K S U := { w with random := rest, state := w.state.draw (Nonce.ofRaw raw) }
  obtain ⟨payload, heap₁, hPayload, hTree, -⟩ := returns_cons_message (w := w₁) hErrno
    (letterElems (some name) session [w.state.them.nonce, Nonce.ofRaw raw]) (some recvName) (letterElems_makesNew _ _ _)
  have hText := nodeBstr_letter env.lib (shortLetter_recv hLength w.state.them.nonce (Nonce.ofRaw raw)) hTree
  obtain ⟨msg, heap, t, hEncrypt, hMsg, hExt, hSeals⟩ := returns_encryptNode (w := w₁.grown heap₁) hCcm hErrno
    w.state.shared emptyHeader hText
  let w₂ : World D K S U := { w₁ with heap, state := w₁.state.advance }
  have hDestroy : Returns (destroy (some payload)) w₂ () w₂ := by
    refine returns_destroyTree (t := (letterElems (some name) session [w.state.them.nonce, Nonce.ofRaw raw]).tree
      (some recvName)) ?_ ?_
    · exact Represents.extend hTree hExt
    · simp [letterElems, nonceElems, Elems.tree, Elems.kids, Forest.height, maxTreeDeep]
  refine ⟨msg, heap, t, ?_, hMsg, hSeals⟩
  refine returns_bind.mpr ⟨true, w, returns_check_true rfl hErrno, ?_⟩
  refine returns_bind.mpr ⟨true, w₁, returns_drawNonce hErrno hRandom hRaw, ?_⟩
  refine returns_bind.mpr ⟨w₁, w₁, returns_get.mpr ⟨rfl, rfl⟩, ?_⟩
  dsimp only
  rw [show w₁.state.me.name = some name.text from hName, show w₁.state.me.session = some session from hSession]
  refine returns_bind.mpr ⟨some payload, _, hPayload, ?_⟩
  refine returns_bind.mpr ⟨true, _, returns_check_true rfl hErrno, ?_⟩
  refine returns_bind.mpr ⟨some msg, w₂, hEncrypt, ?_⟩
  refine returns_bind.mpr ⟨true, w₂, returns_check_true rfl hErrno, ?_⟩
  exact returns_bind.mpr ⟨(), w₂, hDestroy, returns_pure.mpr ⟨rfl, rfl⟩⟩

variable {msg : Nat} {t : Stackish.Tree D} {header : Bytes} {theirs mine : Nonce}

/-- I<-R: Ei(R,Kri,Ni,Nr) -/
theorem settles_initiatorProcessResponse (hCcm : SoundCcm env.ltc) (hErrno : w.errno = 0) (hTree : w.Holds msg t)
    (hFits : name.Fits) (hLength : session.length = keyLength)
    (hSeals : Seals env.ltc w.state.shared w.state.me.nonce header
      (responseDocument (some name) session mine theirs : Document D).encode t) :
    ∃ heap, Settles (fun fuel => initiatorProcessResponse { env with fuel } header msg) w true
      { w with heap, state := w.state.bump.learn theirs (some session) (some name.text) } := by
  have hLetter : Fits (responseDocument (some name) session mine theirs : Document D).tree :=
    fits_letter (shortLetter_recv hLength mine theirs) (by rintro m ⟨⟩; exact hFits)
  obtain ⟨node, heap, ⟨n, hDecrypt⟩, hNode⟩ := settles_decryptNode hCcm hErrno hTree hLetter hSeals
  have hNode' : Represents heap none (some node)
      ((letterElems (some name) session [mine, theirs]).tree (some recvName)) := hNode
  obtain ⟨bound, hDecons, hBound⟩ := nodeDecons_message env.lib true (by simp [letterElems])
    (letterElems_full _ _ _) hNode'
  have hShape : bound = responseBound theirs mine (some session) (some name.text) := by
    obtain ⟨theirs', mine', session', name', rfl⟩ := nodeDecons_response hDecons
    simp only [responseBound, letterElems, nonceElems, Elems.values, List.nil_append, List.cons_append,
      List.forall₂_cons, Stores] at hBound
    obtain ⟨hTheirsLeft, hTheirsRight, hMineLeft, hMineRight, rfl, rfl, -⟩ := hBound
    rw [responseBound, hTheirsLeft, hTheirsRight, hMineLeft, hMineRight]
    rfl
  refine ⟨heap, n, fun fuel hFuel => ?_⟩
  refine initiatorProcessResponse_true.mpr ⟨node, _, theirs, mine, some session, some name.text, hDecrypt fuel hFuel,
    ?_, ?_, rfl⟩
  · rw [← hShape]
    exact hDecons
  · refine (Stackish.Represents.releasable_iff hNode').mpr ?_
    simp [letterElems, nonceElems, Elems.tree, Elems.kids, Forest.height, maxTreeDeep]

/-- A response without a name is not taken. -/
theorem initiatorProcessResponse_nameless (hCcm : SoundCcm env.ltc) (hErrno : w.errno = 0) (hTree : w.Holds msg t)
    (hLength : session.length = keyLength)
    (hSeals : Seals env.ltc w.state.shared w.state.me.nonce header
      (responseDocument none session mine theirs : Document D).encode t) {w' : World D K S U} :
    ¬ Settles (fun fuel => initiatorProcessResponse { env with fuel } header msg) w true w' := by
  have hLetter : Fits (responseDocument none session mine theirs : Document D).tree :=
    fits_letter (shortLetter_recv hLength mine theirs) (by simp)
  obtain ⟨node, heap, ⟨a, hDecrypt⟩, hNode⟩ := settles_decryptNode hCcm hErrno hTree hLetter hSeals
  rintro ⟨b, h⟩
  let fuel := max a b
  obtain ⟨node', v, _, _, _, _, hDecrypt', hDecons, -⟩ := initiatorProcessResponse_true.mp (h fuel (by omega))
  obtain ⟨hSame, rfl⟩ := hDecrypt'.unique (hDecrypt fuel (by omega))
  cases hSame
  obtain ⟨-, fields, hFields, -⟩ := (nodeDecons_fields env.lib hNode true responseFormat 0).1 _ hDecons
  cases hFields

end Response

section Final
variable {mine theirs : S}

/-- I->R: Er(Nr) -/
theorem returns_initiatorSendFinal (hCcm : SoundCcm env.ltc) (hErrno : w.errno = 0)
    (hMine : env.ltc.rijndaelSetup w.state.me.session = some mine)
    (hTheirs : env.ltc.rijndaelSetup w.state.them.session = some theirs) :
    ∃ msg heap t, Returns (initiatorSendFinal env) w (some msg, emptyHeader)
        { w with heap, state := w.state.advance.finalize mine theirs env.ltc.noSkey } ∧
      Represents heap none (some msg) t ∧
      Seals env.ltc w.state.shared w.state.them.nonce emptyHeader
        (finalDocument w.state.them.nonce : Document D).encode t := by
  obtain ⟨payload, heap₁, hPayload, hTree, -⟩ := returns_cons_message hErrno (nonceElems [w.state.them.nonce])
    (some initName) (nonceElems_makesNew _)
  have hText :
      nodeBstr env.lib heap₁ (some payload) true = .ok (finalDocument w.state.them.nonce : Document D).encode :=
    nodeBstr_document (fits_final w.state.them.nonce) hTree
  obtain ⟨msg, heap, t, hEncrypt, hMsg, hExt, hSeals⟩ := returns_encryptNode (w := w.grown heap₁) hCcm hErrno
    w.state.shared emptyHeader hText
  let w₁ : World D K S U := { w with heap, state := w.state.advance }
  let w₂ : World D K S U := { w with heap, state := w.state.advance.finalize mine theirs env.ltc.noSkey }
  have hDestroy : Returns (destroy (some payload)) w₂ () w₂ := by
    refine returns_destroyTree (t := (nonceElems [w.state.them.nonce]).tree (some initName)) ?_ ?_
    · exact Represents.extend hTree hExt
    · simp [nonceElems, Elems.tree, Elems.kids, Forest.height, maxTreeDeep]
  refine ⟨msg, heap, t, ?_, hMsg, hSeals⟩
  refine returns_bind.mpr ⟨w, w, returns_get.mpr ⟨rfl, rfl⟩, ?_⟩
  refine returns_bind.mpr ⟨some payload, _, hPayload, ?_⟩
  refine returns_bind.mpr ⟨true, _, returns_check_true rfl hErrno, ?_⟩
  refine returns_bind.mpr ⟨some msg, w₁, hEncrypt, ?_⟩
  refine returns_bind.mpr ⟨true, w₁, returns_check_true rfl hErrno, ?_⟩
  refine returns_bind.mpr ⟨true, w₂, returns_finalizeSession (w := w₁) hErrno hMine hTheirs, ?_⟩
  refine returns_bind.mpr ⟨true, w₂, returns_check_true rfl hErrno, ?_⟩
  exact returns_bind.mpr ⟨(), w₂, hDestroy, returns_pure.mpr ⟨rfl, rfl⟩⟩

/-- R<-I: Er(Nr) -/
theorem settles_receiverDone (hCcm : SoundCcm env.ltc) (hErrno : w.errno = 0) {msg : Nat} {t : Stackish.Tree D}
    (hTree : w.Holds msg t) {header : Bytes}
    (hSeals :
      Seals env.ltc w.state.shared w.state.me.nonce header (finalDocument w.state.me.nonce : Document D).encode t)
    (hMine : env.ltc.rijndaelSetup w.state.me.session = some mine)
    (hTheirs : env.ltc.rijndaelSetup w.state.them.session = some theirs) :
    ∃ heap, Settles (fun fuel => receiverDone { env with fuel } header msg) w true
      { w with heap, state := w.state.bump.finalize mine theirs env.ltc.noSkey } := by
  obtain ⟨payload, heap, hDecrypt, hPayload⟩ := settles_decryptNode hCcm hErrno hTree (fits_final _) hSeals
  let w₁ : World D K S U := { w with heap, state := w.state.bump }
  let w₂ : World D K S U := { w with heap, state := w.state.bump.finalize mine theirs env.ltc.noSkey }
  have hPayload' : w₁.Holds payload ((nonceElems [w.state.me.nonce]).tree (some initName)) := hPayload
  obtain ⟨bound, hDecons, hBound⟩ := returns_decons_message env (w := w₁) hErrno false (by simp [nonceElems])
    (nonceElems_full _) hPayload'
  have hDestroy : Returns (destroy (some payload)) w₂ () w₂ := by
    refine returns_destroyTree (t := (nonceElems [w.state.me.nonce]).tree (some initName)) hPayload ?_
    simp [nonceElems, Elems.tree, Elems.kids, Forest.height, maxTreeDeep]
  have hLeft : boundNumber bound 0 0 = w.state.me.nonce.left := boundNumber_stores hBound rfl 0
  have hRight : boundNumber bound 1 0 = w.state.me.nonce.right := boundNumber_stores hBound rfl 0
  refine ⟨heap, ?_⟩
  refine (returns_get.mpr ⟨rfl, rfl⟩).settles ?_
  refine hDecrypt.bind (settles_checkPass rfl hErrno ?_)
  refine Returns.settles hDecons (settles_checkPass rfl hErrno ?_)
  refine (returns_get.mpr ⟨rfl, rfl⟩).settles ?_
  refine settles_checkPass ?_ hErrno ?_
  · rw [hLeft, hRight]
    exact decide_eq_true rfl
  refine Returns.settles (returns_finalizeSession (w := w₁) hErrno hMine hTheirs) ?_
  refine (returns_check_true rfl hErrno : Returns (check true) w₂ true w₂).settles ?_
  exact hDestroy.settles settles_pure

end Final

end Utu.Protocol
