import Utu.Protocol.Handshake

/-!
# The receiver's handshake

When `Peer_establish_receiver` returns 1: its variable `rc` still holds the
success of an earlier step while the receiver's answer is built and while the
initiator's last frame is read.
-/

namespace Utu.Protocol
open Stackish LinkedForest Procedure
set_option autoImplicit false

section Receiver
variable {D K S : Type} (env : Env D K S) (keyConfirm : KeyConfirm D K S Wire)

/-- The call from `w` knows the initiator and goes on with `w₁`: the initiator sent `packet` under
the header `hbuf`, and it is decrypted in `v`. -/
inductive Identity (w : World D K S Wire) :
    Bytes → Nat → World D K S Wire → World D K S Wire → Prop
  | intro {rmsg hdr : Option Nat} {hbuf : Bytes} {packet header : Nat}
      {started sent received parsed keyed w₁ : World D K S Wire}
      (hIdentify : Returns (identifyInitiator env keyConfirm) w (.goOn true) w₁)
      (hStart : Returns (receiverStart env) w rmsg started)
      (hSend : Returns (frameSourceSend env (some []) rmsg) started true sent)
      (hRecv : Returns (frameSourceRecv env) sent (some packet, some hbuf, hdr) received)
      (hParse : Returns (parse env hbuf) received (some header) parsed)
      (hKey : Returns (createSharedKey env header false keyConfirm) parsed.clear true keyed) :
      Identity w hbuf packet keyed.clear w₁

variable {env keyConfirm} {w w' : World D K S Wire}

theorem Identity.unique {hbuf hbuf' : Bytes} {packet packet' : Nat} {v v' w₁ w₁' : World D K S Wire}
    (h : Identity env keyConfirm w hbuf packet v w₁)
    (h' : Identity env keyConfirm w hbuf' packet' v' w₁') :
    hbuf = hbuf' ∧ packet = packet' ∧ v = v' ∧ w₁ = w₁' := by
  obtain ⟨hIdentify, hStart, hSend, hRecv, hParse, hKey⟩ := h
  obtain ⟨hIdentify', hStart', hSend', hRecv', hParse', hKey'⟩ := h'
  obtain ⟨-, rfl⟩ := hIdentify.unique hIdentify'
  obtain ⟨rfl, rfl⟩ := hStart.unique hStart'
  obtain ⟨-, rfl⟩ := hSend.unique hSend'
  obtain ⟨hFrame, rfl⟩ := hRecv.unique hRecv'
  cases hFrame
  obtain ⟨hHeader, rfl⟩ := hParse.unique hParse'
  cases hHeader
  obtain ⟨-, rfl⟩ := hKey.unique hKey'
  exact ⟨rfl, rfl, rfl, rfl⟩

theorem Identity.goOn {hbuf : Bytes} {packet : Nat} {v w₁ : World D K S Wire}
    (h : Identity env keyConfirm w hbuf packet v w₁) :
    Returns (identifyInitiator env keyConfirm) w (.goOn true) w₁ := by
  obtain ⟨hIdentify, -, -, -, -, -⟩ := h
  exact hIdentify

/-! ## The parts of the call -/

/-- An exit before the initiator is known returns 0. -/
theorem identifyInitiator_cases {p : Progress} {w₁ : World D K S Wire}
    (h : Returns (identifyInitiator env keyConfirm) w p w₁) :
    p = .exit false ∨ p = .goOn true ∧ ∃ hbuf packet v ident v',
      Identity env keyConfirm w hbuf packet v w₁ ∧
      (∃ t, Represents v.heap none (some packet) t) ∧
      Returns (decryptNode env v.state.shared hbuf packet) v (some ident) v' ∧
      w₁.state.shared = v'.state.shared := by
  have hWhole := h
  obtain ⟨rmsg, started, hStart, h₁⟩ := returns_bind.mp h
  obtain ⟨rc, sent, hSend, h₂⟩ := returns_bind.mp h₁
  have hSent := (quiet_frameSourceSend hSend).2
  rcases returns_checkElse.mp h₂ with ⟨hRc, hExit⟩ | ⟨hRc, h₃⟩
  · rw [hSent, beq_self_eq_true, Bool.and_true] at hRc
    subst hRc
    exact .inl (exit_leave hExit)
  rw [World.clear_of_errno hSent] at h₃
  obtain rfl := (Bool.and_eq_true_iff.mp hRc).1
  obtain ⟨u, t, hDestroy, h₄⟩ := returns_bind.mp h₃
  obtain ⟨-, rfl⟩ := returns_destroy.mp hDestroy
  obtain ⟨⟨imsg, header, ihdr⟩, received, hRecv, h₅⟩ := returns_bind.mp h₄
  rcases returns_checkElse.mp h₅ with ⟨-, hExit⟩ | ⟨-, h₆⟩
  · exact .inl (exit_leave hExit)
  obtain ⟨packet, t', hPacket, h₇⟩ := returns_bind.mp h₆
  obtain ⟨rfl, rfl⟩ := returns_orAssert.mp hPacket
  obtain ⟨hbuf, t', hHbuf, h₈⟩ := returns_bind.mp h₇
  obtain ⟨rfl, rfl⟩ := returns_orAssert.mp hHbuf
  obtain ⟨-, hReceived, ⟨t', hTree⟩, hb, hSome, hLen⟩ := frameSourceRecv_body hRecv
  cases hSome
  rw [World.clear_of_errno hReceived] at h₈
  obtain ⟨rc, processed, hProcess, h₉⟩ := returns_bind.mp h₈
  cases rc with
  | false =>
    rcases returns_checkElse.mp h₉ with ⟨-, hExit⟩ | ⟨hRc, -⟩
    · exact .inl (exit_leave hExit)
    · cases hRc
  | true =>
    obtain ⟨hErrno, hdr, parsed, keyed, ident, v', hParse, hKey, hDecrypt, hShared, -⟩ :=
      receiverProcessResponse_true hProcess
    rcases returns_checkElse.mp h₉ with ⟨hRc, -⟩ | ⟨-, h₁₀⟩
    · simp [hErrno] at hRc
    simp only [returns_bind, returns_destroy, returns_pure] at h₁₀
    obtain ⟨-, t₁, ⟨-, rfl⟩, -, t₂, ⟨-, rfl⟩, rfl, rfl⟩ := h₁₀
    have hExt := ((quiet_parse hLen hParse).trans (.clear _)).heap.trans (createSharedKey_extends hKey)
    exact .inr ⟨rfl, hbuf, packet, keyed.clear, ident, v', ⟨hWhole, hStart, hSend, hRecv, hParse, hKey⟩,
      ⟨t', hTree.extend hExt⟩, hDecrypt, hShared⟩

/-- The answer is sent, or the call ends with what `rc` was before the answer was built. -/
theorem answerInitiator_cases {p : Progress} {w₁ w₂ : World D K S Wire}
    (h : Returns (answerInitiator env true) w₁ p w₂) :
    p = .exit false ∨
      (p = .exit true ∧ ∃ header t, Returns (receiverSendFinal env) w₁ (none, header) t) ∨
      p = .goOn true ∧ (∃ raw rest, w₁.random = raw :: rest ∧ raw.length = nonceLength ∧
        w₂.state.me.nonce = Nonce.ofRaw raw) ∧ w₂.state.shared = w₁.state.shared := by
  obtain ⟨⟨rmsg, header⟩, built, hBuild, h₁⟩ := returns_bind.mp h
  cases rmsg with
  | none =>
    rcases returns_checkElse.mp h₁ with ⟨-, hExit⟩ | ⟨hRc, -⟩
    · exact .inr (.inl ⟨exit_leave hExit, header, built, hBuild⟩)
    · cases hRc
  | some rmsg =>
    obtain ⟨hNonce, hShared, hBuilt⟩ := receiverSendFinal_nonce hBuild
    rcases returns_checkElse.mp h₁ with ⟨hRc, -⟩ | ⟨-, h₂⟩
    · simp [hBuilt] at hRc
    obtain ⟨rc, sent, hSend, h₃⟩ := returns_bind.mp h₂
    obtain ⟨hQuiet, hSent⟩ := quiet_frameSourceSend hSend
    rcases returns_checkElse.mp h₃ with ⟨hRc, hExit⟩ | ⟨hRc, h₄⟩
    · rw [hSent, beq_self_eq_true, Bool.and_true] at hRc
      subst hRc
      exact .inl (exit_leave hExit)
    obtain rfl := (Bool.and_eq_true_iff.mp hRc).1
    simp only [returns_bind, returns_destroy, returns_pure] at h₄
    obtain ⟨-, t, ⟨-, rfl⟩, rfl, rfl⟩ := h₄
    have hState : sent.state = built.state := hQuiet.state
    refine .inr (.inr ⟨rfl, ?_, ?_⟩)
    · simpa [hState] using hNonce
    · simpa [hState] using hShared

/-- The call returns 1 when the answer cannot be built, or through the last part. -/
theorem peerEstablishReceiver_true :
    Returns (peerEstablishReceiver env keyConfirm) w true w' ↔
      ∃ w₁, Returns (identifyInitiator env keyConfirm) w (.goOn true) w₁ ∧
        (Returns (answerInitiator env true) w₁ (.exit true) w' ∨
          ∃ w₂, Returns (answerInitiator env true) w₁ (.goOn true) w₂ ∧
            Returns (awaitInitiator env true) w₂ true w') := by
  constructor
  · intro h
    obtain ⟨p, w₁, hIdentify, h₁⟩ := returns_bind.mp h
    rcases identifyInitiator_cases hIdentify with rfl | ⟨rfl, -⟩
    · cases (returns_pure.mp h₁).1
    obtain ⟨q, w₂, hAnswer, h₂⟩ := returns_bind.mp h₁
    refine ⟨w₁, hIdentify, ?_⟩
    rcases answerInitiator_cases hAnswer with rfl | ⟨rfl, -⟩ | ⟨rfl, -⟩
    · cases (returns_pure.mp h₂).1
    · obtain ⟨-, rfl⟩ := returns_pure.mp h₂
      exact .inl hAnswer
    · exact .inr ⟨w₂, hAnswer, h₂⟩
  · rintro ⟨w₁, hIdentify, hAnswer | ⟨w₂, hAnswer, hAwait⟩⟩
    · refine returns_bind.mpr ⟨_, _, hIdentify, returns_bind.mpr ⟨_, _, hAnswer, ?_⟩⟩
      exact returns_pure.mpr ⟨rfl, rfl⟩
    · exact returns_bind.mpr ⟨_, _, hIdentify, returns_bind.mpr ⟨_, _, hAnswer, hAwait⟩⟩

/-- Between the two packets the shared key stays, and the receiver's nonce is the one it drew. -/
theorem Identity.keeps {hbuf hbuf' : Bytes} {packet msg : Nat} {hdr : Option Nat}
    {v w₁ w₂ w₃ : World D K S Wire} (hIdentity : Identity env keyConfirm w hbuf packet v w₁)
    (hSound : SoundAt env v v.state.shared hbuf packet)
    (hAnswer : Returns (answerInitiator env true) w₁ (.goOn true) w₂)
    (hRecv : Returns (frameSourceRecv env) w₂ (some msg, some hbuf', hdr) w₃) :
    (∃ ident v', Opened env v.state.shared hbuf packet ident v v') ∧
      w₃.state.shared = v.state.shared ∧ ∃ raw rest, (w₁.random = raw :: rest ∧
        raw.length = nonceLength) ∧ w₃.state.me.nonce = Nonce.ofRaw raw := by
  rcases identifyInitiator_cases hIdentity.goOn with h | ⟨-, _, _, _, ident, v', h, ⟨t, hTree⟩, hDecrypt, hShared⟩
  · cases h
  obtain ⟨rfl, rfl, rfl, -⟩ := hIdentity.unique h
  obtain ⟨hOpened, hBump⟩ := hSound.opened hTree hDecrypt
  rcases answerInitiator_cases hAnswer with h | ⟨h, -⟩ | ⟨-, ⟨raw, rest, hRandom, hLen, hNonce⟩, hSame⟩
  · cases h
  · cases h
  have hState := (frameSourceRecv_body hRecv).1.state
  refine ⟨⟨ident, v', hOpened⟩, ?_, raw, rest, ⟨hRandom, hLen⟩, by rw [hState, hNonce]⟩
  rw [hState, hSame, hShared, hBump]
  rfl

end Receiver

/-! ## An initiator that falls silent -/

def confirmAny : KeyConfirm Unit Unit Unit Wire where
  run := pure true
  keeps h := by
    obtain ⟨-, rfl⟩ := returns_pure.mp h
    exact Extends.refl _

end Utu.Protocol
