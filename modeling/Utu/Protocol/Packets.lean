import Utu.Protocol.Handshake
import Utu.Protocol.Messages

/-!
# Sealed packets

What `CryptState_encrypt_packet` makes of a payload is an envelope with the
ciphertext and its tag. Under the same key, nonce and header the other side
gets the payload back, and its nonce moves on as the sender's did.
-/

namespace Utu.Protocol
open Stackish LinkedForest Procedure
set_option autoImplicit false

variable {D K S U : Type}

/-- Decryption inverts encryption under the same key, nonce and header. -/
def SoundCcm (ltc : Ltc K S) : Prop :=
  ∀ key nonce header text, ∃ out tag, ltc.ccmMemory .encrypt key nonce header text = some (out, tag) ∧
    ltc.ccmMemory .decrypt key nonce header out = some (text, tag)

def envelopeElems (text tag : Bytes) : Elems := .leaf (.blob text) none (.leaf (.blob tag) none .nil)

/-- The tree is the envelope of the text. -/
def Seals (ltc : Ltc K S) (key : S) (nonce : Nonce) (header text : Bytes) (t : Stackish.Tree D) : Prop :=
  ∃ out tag, ltc.ccmMemory .encrypt key nonce header text = some (out, tag) ∧
    t = (envelopeElems out tag).tree (some envName)

/-- `CryptState_nonce_inc(&state->them.nonce)` -/
def CryptState.advance (st : CryptState K S) : CryptState K S :=
  { st with them := { st.them with nonce := st.them.nonce.inc } }

section Packet
variable {env : Env D K S} {w : World D K S U} {key : S} {header text : Bytes}

theorem returns_encryptPacket (hCcm : SoundCcm env.ltc) (hErrno : w.errno = 0) (key : S) (header text : Bytes) :
    ∃ node heap t, Returns (encryptPacket env key header text) w (some node)
        { w with heap, state := w.state.advance } ∧
      Represents heap none (some node) t ∧ Extends w.heap heap ∧
      Seals env.ltc key w.state.them.nonce header text t := by
  obtain ⟨out, tag, hSeal, -⟩ := hCcm key w.state.them.nonce header text
  let w₁ : World D K S U := { w with state := w.state.advance }
  obtain ⟨node, heap, hCons, hTree, hExt⟩ := returns_cons_message (w := w₁) hErrno (envelopeElems out tag)
    (some envName) (by simp [envelopeElems, Elems.format, Leaf.piece, Piece.makesNew])
  refine ⟨node, heap, _, ?_, hTree, hExt, out, tag, hSeal, rfl⟩
  refine returns_bind.mpr ⟨w, w, returns_get.mpr ⟨rfl, rfl⟩, ?_⟩
  rw [hSeal]
  refine returns_bind.mpr ⟨true, w, returns_check_true rfl hErrno, ?_⟩
  exact returns_bind.mpr ⟨(), w₁, returns_modifyState.mpr rfl, hCons⟩

theorem returns_decryptPacket (hCcm : SoundCcm env.ltc) (hErrno : w.errno = 0) {packet : Nat} {t : Stackish.Tree D}
    (hTree : w.Holds packet t) (hSeals : Seals env.ltc key w.state.me.nonce header text t) :
    ∃ heap, Returns (decryptPacket env key header packet) w (some text) { w with heap, state := w.state.bump } := by
  obtain ⟨out, tag, hSeal, rfl⟩ := hSeals
  obtain ⟨out', tag', hSeal', hOpen⟩ := hCcm key w.state.me.nonce header text
  obtain ⟨rfl, rfl⟩ : out = out' ∧ tag = tag' := by simpa using hSeal.symm.trans hSeal'
  have hEnv :
      envelope ((envelopeElems out tag).tree (some envName) : Stackish.Tree D) = some (some tag, some out) := rfl
  obtain ⟨w', hReturns, hRest⟩ := decryptPacket_named env key header hTree hErrno hEnv rfl
  have hWorld := hRest (by rw [hOpen]; exact Option.some_ne_none _)
  have hText : openEnvelope env.ltc key w.state.me.nonce header ((envelopeElems out tag).tree (some envName) :
      Stackish.Tree D) (some tag) out = some text := by
    simp [openEnvelope, hOpen, tagSeen, oneBlob, envelopeElems, Elems.tree, Elems.kids, biseq]
  rw [hText, hWorld] at hReturns
  exact ⟨w'.heap, hReturns⟩

/-- A node whose text is known is sealed as this text. -/
theorem returns_encryptNode (hCcm : SoundCcm env.ltc) (hErrno : w.errno = 0) (key : S) (header : Bytes) {node : Nat}
    (hText : nodeBstr env.lib w.heap (some node) true = .ok text) :
    ∃ msg heap t, Returns (encryptNode env key header (some node)) w (some msg)
        { w with heap, state := w.state.advance } ∧
      Represents heap none (some msg) t ∧ Extends w.heap heap ∧
      Seals env.ltc key w.state.them.nonce header text t := by
  obtain ⟨msg, heap, t, hPacket, hTree, hExt, hSeals⟩ := returns_encryptPacket hCcm hErrno key header text
  refine ⟨msg, heap, t, ?_, hTree, hExt, hSeals⟩
  refine returns_bind.mpr ⟨text, w, returns_bstr.mpr ⟨hText, rfl⟩, ?_⟩
  refine returns_bind.mpr ⟨true, w, returns_check_true rfl hErrno, ?_⟩
  refine returns_bind.mpr ⟨some msg, _, hPacket, ?_⟩
  exact returns_bind.mpr ⟨true, _, returns_check_true rfl hErrno, returns_pure.mpr ⟨rfl, rfl⟩⟩

/-- A sealed document is read back. -/
theorem settles_decryptNode (hCcm : SoundCcm env.ltc) (hErrno : w.errno = 0) {packet : Nat} {t : Stackish.Tree D}
    (hTree : w.Holds packet t) {doc : Document D} (hFits : Fits doc.tree)
    (hSeals : Seals env.ltc key w.state.me.nonce header doc.encode t) :
    ∃ node heap, Settles (fun fuel => decryptNode { env with fuel } key header packet) w (some node)
        { w with heap, state := w.state.bump } ∧ Represents heap none (some node) doc.tree := by
  obtain ⟨heap, hPacket⟩ := returns_decryptPacket hCcm hErrno hTree hSeals
  let w₁ : World D K S U := { w with heap, state := w.state.bump }
  obtain ⟨node, heap', hParse, hNode, -⟩ := settles_parse_document env (w := w₁) hErrno hFits
  have hLength : 0 < doc.encode.length := by simp [Document.encode]
  refine ⟨node, heap', ?_, hNode⟩
  refine (settles_of_returns fun fuel => hPacket).bind ?_
  refine settles_checkPass (decide_eq_true hLength) hErrno ?_
  have hCheck : Returns (check (some node).isSome) (w₁.grown heap') true (w₁.grown heap') :=
    returns_check_true rfl hErrno
  exact hParse.bind (hCheck.settles settles_pure)

end Packet

end Utu.Protocol
