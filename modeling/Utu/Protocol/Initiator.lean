import Utu.Protocol.Receiver

/-!
# The initiator's handshake

`CryptState_initiator_process_response` compares the echoed nonce, but what it
returns was written before the comparison; `CryptState_initiator_send_final`
returns its message also when the session keys were not scheduled; and
`Peer_establish_initiator` keeps its `rc` over two steps that do not write it.
-/

namespace Utu.Protocol
open Stackish LinkedForest Procedure
set_option autoImplicit false

section Initiator
variable {D K S U : Type} (env : Env D K S)

/-- The format of the response `R`, `Kri`, `Ni`, `Nr`, read backwards. -/
def responseFormat : List Expect :=
  [.start, .number, .number, .number, .number, .blob, .string, .word recvName]

def responseBound (theirs mine : Nonce) (session name : Option Bytes) : List (Bound D) :=
  [.number theirs.left, .number theirs.right, .number mine.left, .number mine.right,
    .copied session, .copied name]

/-- What the initiator keeps of a response. -/
def CryptState.learn (st : CryptState K S) (theirs : Nonce) (session name : Option Bytes) :
    CryptState K S := { st with them := { st.them with nonce := theirs, session, name } }

/-- The response opened under the shared key to a structure with both nonces. -/
def Responded (mine theirs : Nonce) (header : Bytes) (msg : Nat) (w : World D K S U) : Prop :=
  ∃ node v session name, Opened env w.state.shared header msg node w v ∧
    nodeDecons env.lib v.heap 0 true node responseFormat =
      .ok (true, responseBound theirs mine session name)

/-- A response that can be taken apart comes in a sound packet and echoes the initiator's nonce,
unless freeing it stops the process. -/
def ResponseServed (header : Bytes) (msg : Nat) (w : World D K S U) : Prop :=
  ∀ {node v theirs mine session name freed},
    Returns (decryptNode env w.state.shared header msg) w (some node) v →
    nodeDecons env.lib v.heap 0 true node responseFormat =
      .ok (true, responseBound theirs mine session name) →
    nodeDestroy v.heap (some node) = .ok freed →
    SoundAt env w w.state.shared header msg ∧ mine = w.state.me.nonce

/-- The message carries the receiver's nonce, and both session keys were scheduled. -/
structure FinalMessage (theirs : Nonce) (msg : Nat) (w w' : World D K S U) : Prop where
  carried : ∃ payload w₁ w₂, Returns (cons [.start, .number theirs.right, .number theirs.left,
    .word initName]) w (some payload) w₁ ∧
    Returns (encryptNode env w.state.shared emptyHeader (some payload)) w₁.clear (some msg) w₂
  mine : env.ltc.rijndaelSetup w.state.me.session = some w'.state.me.skey
  theirs : env.ltc.rijndaelSetup w.state.them.session = some w'.state.them.skey

variable {env} {w w' : World D K S U}

theorem nodeDecons_response {h : Heap D} {errno root : Nat} {bound : List (Bound D)}
    (hr : nodeDecons env.lib h errno true root responseFormat = .ok (true, bound)) :
    ∃ theirs mine session name, bound = responseBound theirs mine session name := by
  have hKinds := nodeDecons_kinds hr
  obtain ⟨b₀, bound, rfl, h₀, hKinds⟩ := List.map_eq_cons_iff.mp hKinds
  obtain ⟨b₁, bound, rfl, h₁, hKinds⟩ := List.map_eq_cons_iff.mp hKinds
  obtain ⟨b₂, bound, rfl, h₂, hKinds⟩ := List.map_eq_cons_iff.mp hKinds
  obtain ⟨b₃, bound, rfl, h₃, hKinds⟩ := List.map_eq_cons_iff.mp hKinds
  obtain ⟨b₄, bound, rfl, h₄, hKinds⟩ := List.map_eq_cons_iff.mp hKinds
  obtain ⟨b₅, bound, rfl, h₅, hKinds⟩ := List.map_eq_cons_iff.mp hKinds
  obtain rfl := List.map_eq_nil_iff.mp hKinds
  obtain ⟨l, rfl⟩ := Bound.eq_number h₀
  obtain ⟨r, rfl⟩ := Bound.eq_number h₁
  obtain ⟨l', rfl⟩ := Bound.eq_number h₂
  obtain ⟨r', rfl⟩ := Bound.eq_number h₃
  obtain ⟨session, rfl⟩ := Bound.eq_copied h₄
  obtain ⟨name, rfl⟩ := Bound.eq_copied h₅
  exact ⟨⟨l, r⟩, ⟨l', r'⟩, session, name, rfl⟩

/-! ## The response -/

/-- A `check` before the node is freed anyway changes nothing. -/
theorem returns_checkDestroyReturn {α : Type} {c : Bool} {node : Option Nat} {a b : α}
    {m : Call D K S U α} (hErrno : w.errno = 0)
    (hRest : Returns m w b w' ↔ Returns (destroy node >>= fun _ => pure a) w b w') :
    Returns (check c >>= fun go => if (!go) = true then destroy node >>= fun _ => pure a else m)
      w b w' ↔ Returns (destroy node >>= fun _ => pure a) w b w' := by
  rw [returns_checkElse, World.clear_of_errno hErrno, hRest]
  cases c && w.errno == 0 <;> simp

/-- Every way out behind the deconstruction frees the payload and returns what it gave. -/
theorem returns_takeResponse {node : Nat} {b : Bool} (hErrno : w.errno = 0) :
    Returns (takeResponse env node) w b w' ↔ ∃ bound,
      nodeDecons env.lib w.heap 0 true node responseFormat = .ok (b, bound) ∧
      (∃ freed, nodeDestroy w.heap (some node) = .ok freed) ∧
      w' = { w with state := (w.state.learn
        ⟨boundNumber bound 0 w.state.them.nonce.left, boundNumber bound 1 w.state.them.nonce.right⟩
        (boundString w.heap bound 4 w.state.them.session)
        (boundString w.heap bound 5 w.state.them.name)) } := by
  have hClear := World.clear_of_errno hErrno
  have hTail : ∀ {c₁ c₂ c₃ rc : Bool} {v : World D K S U}, v.errno = 0 →
      (Returns (do
        if !(← check c₁) then
          destroy (some node)
          return rc
        if !(← check c₂) then
          destroy (some node)
          return rc
        let _ ← check c₃
        destroy (some node)
        return rc) v b w' ↔
      (∃ freed, nodeDestroy v.heap (some node) = .ok freed) ∧ b = rc ∧ w' = v) := by
    intro c₁ c₂ c₃ rc v hv
    rw [← returns_destroyReturn]
    refine returns_checkDestroyReturn hv (returns_checkDestroyReturn hv ?_)
    simp only [returns_bind (m := check c₃), returns_check, World.clear_of_errno hv]
    exact ⟨fun ⟨_, _, ⟨_, h₁⟩, h₂⟩ => h₁ ▸ h₂, fun h => ⟨_, _, ⟨rfl, rfl⟩, h⟩⟩
  constructor
  · intro h
    obtain ⟨⟨rc, bound⟩, t, hRun, h₁⟩ := returns_bind.mp h
    obtain ⟨hDecons, rfl⟩ := returns_decons.mp hRun
    rw [hErrno] at hDecons
    rw [hClear] at h₁
    obtain ⟨v₁, t₁, hGet, h₂⟩ := returns_bind.mp h₁
    obtain ⟨rfl, rfl⟩ := returns_get.mp hGet
    obtain ⟨u, t₂, hThem, h₃⟩ := returns_bind.mp h₂
    obtain rfl := returns_modifyState.mp hThem
    obtain ⟨v₃, t₃, hGet, h₄⟩ := returns_bind.mp h₃
    obtain ⟨rfl, rfl⟩ := returns_get.mp hGet
    obtain ⟨hFreed, rfl, rfl⟩ := (hTail (by exact hErrno)).mp h₄
    exact ⟨bound, hDecons, hFreed, rfl⟩
  · rintro ⟨bound, hDecons, hFreed, rfl⟩
    refine returns_bind.mpr ⟨(b, bound), w, returns_decons.mpr ⟨by rwa [hErrno], hClear.symm⟩, ?_⟩
    refine returns_bind.mpr ⟨_, _, returns_get.mpr ⟨rfl, rfl⟩, ?_⟩
    refine returns_bind.mpr ⟨(), _, returns_modifyState.mpr rfl, ?_⟩
    refine returns_bind.mpr ⟨_, _, returns_get.mpr ⟨rfl, rfl⟩, ?_⟩
    exact (hTail (by exact hErrno)).mpr ⟨hFreed, rfl, rfl⟩

/-- A response is taken when it decrypts and can be taken apart; the nonce plays no part. -/
theorem initiatorProcessResponse_true {header : Bytes} {msg : Nat} :
    Returns (initiatorProcessResponse env header msg) w true w' ↔
      ∃ node v theirs mine session name,
        Returns (decryptNode env w.state.shared header msg) w (some node) v ∧
        nodeDecons env.lib v.heap 0 true node responseFormat =
          .ok (true, responseBound theirs mine session name) ∧
        (∃ freed, nodeDestroy v.heap (some node) = .ok freed) ∧
        w' = { v with state := v.state.learn theirs session name } := by
  constructor
  · intro h
    obtain ⟨s, t, hGet, h₁⟩ := returns_bind.mp h
    obtain ⟨rfl, rfl⟩ := returns_get.mp hGet
    obtain ⟨payload, v, hDecrypt, h₂⟩ := returns_bind.mp h₁
    cases payload with
    | none =>
      obtain ⟨-, t', -, hPure⟩ := returns_bind.mp h₂
      cases (returns_pure.mp hPure).1
    | some node =>
      rcases returns_checkElse.mp h₂ with ⟨-, hExit⟩ | ⟨-, h₃⟩
      · cases (returns_destroyReturn.mp hExit).2.1
      have hErrno := decryptNode_errno hDecrypt
      rw [World.clear_of_errno hErrno] at h₃
      obtain ⟨bound, hDecons, hFreed, rfl⟩ := (returns_takeResponse hErrno).mp h₃
      obtain ⟨theirs, mine, session, name, rfl⟩ := nodeDecons_response hDecons
      exact ⟨node, v, theirs, mine, session, name, hDecrypt, hDecons, hFreed, rfl⟩
  · rintro ⟨node, v, theirs, mine, session, name, hDecrypt, hDecons, hFreed, rfl⟩
    have hErrno := decryptNode_errno hDecrypt
    refine returns_bind.mpr ⟨w, w, returns_get.mpr ⟨rfl, rfl⟩, ?_⟩
    refine returns_bind.mpr ⟨_, _, hDecrypt, returns_checkElse.mpr (.inr ⟨by simp [hErrno], ?_⟩)⟩
    rw [World.clear_of_errno hErrno]
    exact (returns_takeResponse hErrno).mpr ⟨_, hDecons, hFreed, rfl⟩

theorem ResponseServed.responded {header : Bytes} {msg node : Nat} {v : World D K S U} {t : Stackish.Tree D}
    {theirs mine : Nonce} {session name : Option Bytes} {freed : List Nat}
    (hServed : ResponseServed env header msg w) (hTree : Represents w.heap none (some msg) t)
    (hDecrypt : Returns (decryptNode env w.state.shared header msg) w (some node) v)
    (hDecons : nodeDecons env.lib v.heap 0 true node responseFormat =
      .ok (true, responseBound theirs mine session name))
    (hFreed : nodeDestroy v.heap (some node) = .ok freed) :
    Responded env w.state.me.nonce theirs header msg w := by
  obtain ⟨hSound, rfl⟩ := hServed hDecrypt hDecons hFreed
  exact ⟨node, v, session, name, (hSound.opened hTree hDecrypt).1, hDecons⟩

/-- The message is returned whatever became of the session keys. -/
theorem initiatorSendFinal_cases {msg : Nat} {header : Bytes}
    (h : Returns (initiatorSendFinal env) w (some msg, header) w') :
    w'.errno = 0 ∧ ∃ payload w₁ w₂ rc w₃,
      Returns (cons [.start, .number w.state.them.nonce.right, .number w.state.them.nonce.left,
        .word initName]) w (some payload) w₁ ∧
      Returns (encryptNode env w.state.shared emptyHeader (some payload)) w₁.clear (some msg) w₂ ∧
      Returns (finalizeSession env) w₂ rc w₃ ∧ w'.state = w₃.state := by
  obtain ⟨s, t, hGet, h₁⟩ := returns_bind.mp h
  obtain ⟨rfl, rfl⟩ := returns_get.mp hGet
  obtain ⟨payload, w₁, hCons, h₂⟩ := returns_bind.mp h₁
  rcases returns_checkElse.mp h₂ with ⟨-, hExit⟩ | ⟨hSome, h₃⟩
  · cases (returns_destroyReturn.mp hExit).2.1
  obtain ⟨payload, rfl⟩ := Option.isSome_iff_exists.mp (Bool.and_eq_true_iff.mp hSome).1
  obtain ⟨msg', w₂, hEncrypt, h₄⟩ := returns_bind.mp h₃
  have hErrno := (encryptNode_state hEncrypt).2.2
  rcases returns_checkElse.mp h₄ with ⟨hNone, hExit⟩ | ⟨-, h₅⟩
  · obtain ⟨-, hMsg, -⟩ := returns_destroyReturn.mp hExit
    cases hMsg
    simp [hErrno] at hNone
  rw [World.clear_of_errno hErrno] at h₅
  obtain ⟨rc, w₃, hFinal, h₆⟩ := returns_bind.mp h₅
  obtain ⟨b, t', hCheck, h₇⟩ := returns_bind.mp h₆
  obtain ⟨-, rfl⟩ := returns_check.mp hCheck
  obtain ⟨-, hMsg, rfl⟩ := returns_destroyReturn.mp h₇
  cases hMsg
  exact ⟨rfl, payload, w₁, w₂, rc, w₃, hCons, hEncrypt, hFinal, rfl⟩

theorem finalizeSession_of_setup {mine theirs : S} (hErrno : w.errno = 0)
    (hMine : env.ltc.rijndaelSetup w.state.me.session = some mine)
    (hTheirs : env.ltc.rijndaelSetup w.state.them.session = some theirs) {rc : Bool}
    (h : Returns (finalizeSession env) w rc w') : rc = true := by
  obtain ⟨v, t, hGet, h₁⟩ := returns_bind.mp h
  obtain ⟨rfl, rfl⟩ := returns_get.mp hGet
  obtain ⟨u, w₁, hMe, h₂⟩ := returns_bind.mp h₁
  obtain rfl := returns_modifyState.mp hMe
  rcases returns_checkElse.mp h₂ with ⟨hFail, -⟩ | ⟨-, h₃⟩
  · simp [hMine, hErrno] at hFail
  simp only [wipeSession, returns_bind, returns_check, returns_modifyState, returns_pure] at h₃
  obtain ⟨-, t₁, rfl, b, t₂, ⟨-, rfl⟩, -, t₃, rfl, rfl, -⟩ := h₃
  rw [hTheirs]
  rfl

/-- The last message of an initiator whose session keys can be scheduled. -/
theorem initiatorSendFinal_final {msg : Nat} {header : Bytes}
    (h : Returns (initiatorSendFinal env) w (some msg, header) w')
    (hMine : env.ltc.rijndaelSetup w.state.me.session ≠ none)
    (hTheirs : env.ltc.rijndaelSetup w.state.them.session ≠ none) :
    FinalMessage env w.state.them.nonce msg w w' := by
  obtain ⟨-, payload, w₁, w₂, rc, w₃, hCons, hEncrypt, hFinal, hState⟩ := initiatorSendFinal_cases h
  obtain ⟨⟨nonce, hState₂⟩, -, hErrno⟩ := encryptNode_state hEncrypt
  obtain ⟨heap, -, rfl⟩ := returns_cons.mp hCons
  have hMe : w₂.state.me.session = w.state.me.session := by rw [hState₂]; rfl
  have hThem : w₂.state.them.session = w.state.them.session := by rw [hState₂]; rfl
  obtain ⟨mine, hMine⟩ := Option.ne_none_iff_exists'.mp hMine
  obtain ⟨theirs, hTheirs⟩ := Option.ne_none_iff_exists'.mp hTheirs
  rw [← hMe] at hMine
  rw [← hThem] at hTheirs
  obtain rfl := finalizeSession_of_setup hErrno hMine hTheirs hFinal
  obtain ⟨mine', theirs', hMine', hTheirs', rfl, rfl, -⟩ := finalizeSession_true hErrno hFinal
  refine ⟨⟨payload, _, w₂, hCons, hEncrypt⟩, ?_, ?_⟩
  · rw [← hMe, hMine', hState]
  · rw [← hThem, hTheirs', hState]

/-- A first message carries the nonce drawn once the shared key was agreed on. -/
theorem initiatorStart_nonce {recvhdr msg : Nat} {hbuf : Option Bytes}
    {keyConfirm : KeyConfirm D K S U}
    (h : Returns (initiatorStart env recvhdr keyConfirm) w (some msg, hbuf) w') :
    ∃ keyed raw, Returns (createSharedKey env recvhdr true keyConfirm) w true keyed ∧
      keyed.random = raw :: w'.random ∧ raw.length = nonceLength ∧
      w'.state.me.nonce = Nonce.ofRaw raw := by
  obtain ⟨rc, keyed, hKey, h₁⟩ := returns_bind.mp h
  rcases returns_checkElse.mp h₁ with ⟨-, hExit⟩ | ⟨hRc, h₂⟩
  · cases (returns_pure.mp hExit).1
  obtain rfl := (Bool.and_eq_true_iff.mp hRc).1
  obtain ⟨v, t, hGet, h₃⟩ := returns_bind.mp h₂
  obtain ⟨rfl, rfl⟩ := returns_get.mp hGet
  obtain ⟨eccKey, t₁, hExport, h₄⟩ := returns_bind.mp h₃
  obtain ⟨-, rfl⟩ := returns_exportKey.mp hExport
  rcases returns_checkElse.mp h₄ with ⟨-, hExit⟩ | ⟨-, h₅⟩
  · cases (returns_pure.mp hExit).1
  obtain ⟨header, t₂, hCons, h₆⟩ := returns_bind.mp h₅
  obtain ⟨heap, -, rfl⟩ := returns_cons.mp hCons
  obtain ⟨buf, t₃, hBstr, h₇⟩ := returns_bind.mp h₆
  obtain ⟨-, rfl⟩ := returns_bstr.mp hBstr
  obtain ⟨drawn, t₄, hNonce, h₈⟩ := returns_bind.mp h₇
  cases drawn with
  | false => cases (returns_destroyReturn.mp h₈).2.1
  | true =>
    obtain ⟨raw, rest, hRandom, hLen, rfl⟩ := createNonce_true hNonce
    obtain ⟨v, t, hGet, h₉⟩ := returns_bind.mp h₈
    obtain ⟨rfl, rfl⟩ := returns_get.mp hGet
    obtain ⟨payload, t₅, hCons', h₁₀⟩ := returns_bind.mp h₉
    obtain ⟨heap', -, rfl⟩ := returns_cons.mp hCons'
    rcases returns_checkElse.mp h₁₀ with ⟨-, hExit⟩ | ⟨-, h₁₁⟩
    · obtain ⟨-, t, -, hExit'⟩ := returns_bind.mp hExit
      cases (returns_destroyReturn.mp hExit').2.1
    obtain ⟨msg', t₆, hEncrypt, h₁₂⟩ := returns_bind.mp h₁₁
    obtain ⟨⟨nonce, hState⟩, hRandom', -⟩ := encryptNode_state hEncrypt
    simp only [returns_bind, returns_check, returns_destroy, returns_pure] at h₁₂
    obtain ⟨b, s₁, ⟨-, rfl⟩, -, s₂, ⟨-, rfl⟩, -, s₃, ⟨-, rfl⟩, -, rfl⟩ := h₁₂
    refine ⟨keyed, raw, hKey, ?_, hLen, by simp [hState]⟩
    rw [World.clear_random, hRandom']
    exact hRandom

end Initiator

/-! ## The call -/

section Establish
variable {D K S : Type} (env : Env D K S) (keyConfirm : KeyConfirm D K S Wire)

/-- The call from `w` sent the initiator's identity and goes on with `w₁`; `raw` was drawn for its
nonce by `CryptState_initiator_start`. -/
inductive Introduction (w : World D K S Wire) : Bytes → World D K S Wire → Prop
  | intro {hbuf header : Option Bytes} {raw : Bytes} {recvhdr imsg : Nat}
      {received keyed started w₁ : World D K S Wire}
      (hIntroduce : Returns (introduceInitiator env keyConfirm) w (.goOn true) w₁)
      (hRecv : Returns (frameSourceRecv env) w (none, hbuf, some recvhdr) received)
      (hStart : Returns (initiatorStart env recvhdr keyConfirm) received.clear (some imsg, header) started)
      (hKey : Returns (createSharedKey env recvhdr true keyConfirm) received.clear true keyed)
      (hDrawn : keyed.random = raw :: started.random ∧ raw.length = nonceLength) :
      Introduction w raw w₁

/-- The receiver's answer `msg` under the header `hbuf` was read in `w₂` and taken. -/
structure Response (hbuf : Bytes) (msg : Nat) (hdr : Option Nat)
    (w₁ w₂ w₃ : World D K S Wire) : Prop where
  hear : Returns (hearReceiver env true) w₁ (.goOn true, hdr) w₃
  recv : Returns (frameSourceRecv env) w₁ (some msg, some hbuf, hdr) w₂
  process : Returns (initiatorProcessResponse env hbuf msg) w₂ true w₃

/-- Everything that makes a handshake happened in the call from `w`. -/
inductive InitiatorEstablished (w w' : World D K S Wire) : Prop
  | intro {raw hbuf header : Bytes} {msg imsg : Nat} {hdr : Option Nat} {theirs : Nonce}
      {w₁ w₂ w₃ w₄ w₅ : World D K S Wire}
      (hIntroduction : Introduction env keyConfirm w raw w₁)
      (hResponse : Response env hbuf msg hdr w₁ w₂ w₃)
      (hResponded : Responded env (Nonce.ofRaw raw) theirs hbuf msg w₂)
      (hBuild : Returns (initiatorSendFinal env) w₃ (some imsg, header) w₄)
      (hFinal : FinalMessage env theirs imsg w₃ w₄)
      (hSend : Returns (frameSourceSend env (some header) (some imsg)) w₄ true w₅)
      (hState : w'.state = w₄.state)

/-- The initiator reports success only for a handshake. -/
def InitiatorSound (w : World D K S Wire) : Prop :=
  ∀ w', Returns (peerEstablishInitiator env keyConfirm) w true w' →
    InitiatorEstablished env keyConfirm w w'

/-- The receiver answers with a body, and the last message can be built, unless cleaning up
without them stops the process; in a call that returns 1, the response echoes the initiator's nonce
in a sound packet, and both session keys can be scheduled. -/
structure InitiatorServed (w : World D K S Wire) : Prop where
  hears : ∀ {w₁}, Returns (introduceInitiator env keyConfirm) w (.goOn true) w₁ →
    ∀ hbuf hdr w₂, Returns (frameSourceRecv env) w₁ (none, hbuf, hdr) w₂ →
      ∀ freed, nodeDestroy w₂.heap hdr ≠ .ok freed
  builds : ∀ {w₁ hbuf msg hdr w₂ w₃},
    Returns (introduceInitiator env keyConfirm) w (.goOn true) w₁ →
    Response env hbuf msg hdr w₁ w₂ w₃ →
    ∀ header w₄, Returns (initiatorSendFinal env) w₃ (none, header) w₄ →
      ∀ freed, nodeDestroy w₄.heap hdr ≠ .ok freed
  genuine : ∀ {w'}, Returns (peerEstablishInitiator env keyConfirm) w true w' →
    ∀ {w₁ hbuf msg hdr w₂ w₃}, Returns (introduceInitiator env keyConfirm) w (.goOn true) w₁ →
      Response env hbuf msg hdr w₁ w₂ w₃ →
      ResponseServed env hbuf msg w₂ ∧ env.ltc.rijndaelSetup w₃.state.me.session ≠ none ∧
        env.ltc.rijndaelSetup w₃.state.them.session ≠ none

variable {env keyConfirm} {w w' : World D K S Wire}

theorem Introduction.goOn {raw : Bytes} {w₁ : World D K S Wire}
    (h : Introduction env keyConfirm w raw w₁) :
    Returns (introduceInitiator env keyConfirm) w (.goOn true) w₁ := by
  obtain ⟨hIntroduce, -, -, -, -⟩ := h
  exact hIntroduce

/-- An exit before the identity is sent returns 0. -/
theorem introduceInitiator_cases {p : Progress} {w₁ : World D K S Wire}
    (h : Returns (introduceInitiator env keyConfirm) w p w₁) :
    p = .exit false ∨ p = .goOn true ∧ ∃ raw, Introduction env keyConfirm w raw w₁ ∧
      w₁.state.me.nonce = Nonce.ofRaw raw := by
  have hWhole := h
  obtain ⟨⟨rmsg, hbuf, rhdr⟩, received, hRecv, h₁⟩ := returns_bind.mp h
  rcases returns_checkElse.mp h₁ with ⟨-, hExit⟩ | ⟨hFirst, h₂⟩
  · exact .inl (exit_leave hExit)
  simp only [Bool.and_eq_true, Option.isNone_iff_eq_none] at hFirst
  obtain ⟨⟨rfl, -⟩, -⟩ := hFirst
  obtain ⟨recvhdr, t, hHdr, h₃⟩ := returns_bind.mp h₂
  obtain ⟨rfl, rfl⟩ := returns_orAssert.mp hHdr
  obtain ⟨⟨imsg, header⟩, started, hStart, h₄⟩ := returns_bind.mp h₃
  rcases returns_checkElse.mp h₄ with ⟨-, hExit⟩ | ⟨hSome, h₅⟩
  · exact .inl (exit_leave hExit)
  obtain ⟨imsg, rfl⟩ := Option.isSome_iff_exists.mp (Bool.and_eq_true_iff.mp hSome).1
  obtain ⟨keyed, raw, hKey, hRandom, hLen, hNonce⟩ := initiatorStart_nonce hStart
  obtain ⟨u, t, hDestroy, h₆⟩ := returns_bind.mp h₅
  obtain ⟨-, rfl⟩ := returns_destroy.mp hDestroy
  obtain ⟨rc, sent, hSend, h₇⟩ := returns_bind.mp h₆
  obtain ⟨hQuiet, hSent⟩ := quiet_frameSourceSend hSend
  rcases returns_checkElse.mp h₇ with ⟨hRc, hExit⟩ | ⟨hRc, h₈⟩
  · rw [hSent, beq_self_eq_true, Bool.and_true] at hRc
    subst hRc
    exact .inl (exit_leave hExit)
  obtain rfl := (Bool.and_eq_true_iff.mp hRc).1
  obtain ⟨-, rfl, rfl⟩ := returns_destroyReturn.mp h₈
  refine .inr ⟨rfl, raw, ⟨hWhole, hRecv, hStart, hKey, hRandom, hLen⟩, ?_⟩
  rw [World.clear_state, hQuiet.state]
  exact hNonce

theorem Introduction.unique {raw raw' : Bytes} {w₁ w₁' : World D K S Wire}
    (h : Introduction env keyConfirm w raw w₁) (h' : Introduction env keyConfirm w raw' w₁') :
    raw = raw' ∧ w₁ = w₁' := by
  obtain ⟨hIntroduce, hRecv, hStart, hKey, hDrawn, -⟩ := h
  obtain ⟨hIntroduce', hRecv', hStart', hKey', hDrawn', -⟩ := h'
  obtain ⟨-, rfl⟩ := hIntroduce.unique hIntroduce'
  obtain ⟨hFrame, rfl⟩ := hRecv.unique hRecv'
  cases hFrame
  obtain ⟨-, rfl⟩ := hStart.unique hStart'
  obtain ⟨-, rfl⟩ := hKey.unique hKey'
  exact ⟨(List.cons.inj (hDrawn.symm.trans hDrawn')).1, rfl⟩

theorem Introduction.nonce {raw : Bytes} {w₁ : World D K S Wire}
    (h : Introduction env keyConfirm w raw w₁) : w₁.state.me.nonce = Nonce.ofRaw raw := by
  rcases introduceInitiator_cases h.goOn with hExit | ⟨-, raw', h', hNonce⟩
  · cases hExit
  obtain ⟨rfl, -⟩ := h.unique h'
  exact hNonce

/-- The answer is taken, or the call ends with what `rc` was before the answer was read. -/
theorem hearReceiver_cases {p : Progress} {hdr : Option Nat} {w₁ w₃ : World D K S Wire}
    (h : Returns (hearReceiver env true) w₁ (p, hdr) w₃) :
    p = .exit false ∨
      (p = .exit true ∧ ∃ hbuf hdr' w₂, Returns (frameSourceRecv env) w₁ (none, hbuf, hdr') w₂ ∧
        ∃ freed, nodeDestroy w₂.heap hdr' = .ok freed) ∨
      p = .goOn true ∧ ∃ hbuf msg w₂, Response env hbuf msg hdr w₁ w₂ w₃ := by
  have hWhole := h
  obtain ⟨⟨rmsg, header, rhdr⟩, w₂, hRecv, h₁⟩ := returns_bind.mp h
  cases rmsg with
  | none =>
    rcases returns_checkElse.mp h₁ with ⟨-, hExit⟩ | ⟨hRc, -⟩
    · obtain ⟨b, t, hLeave, hPure⟩ := returns_bind.mp hExit
      obtain ⟨⟨-, hFreed, -⟩, rfl, -⟩ := returns_leave.mp hLeave
      cases (returns_pure.mp hPure).1
      exact .inr (.inl ⟨rfl, header, rhdr, w₂, hRecv, hFreed⟩)
    · cases hRc
  | some msg =>
    obtain ⟨-, hErrno, -, hbuf, rfl, -⟩ := frameSourceRecv_body hRecv
    rcases returns_checkElse.mp h₁ with ⟨hRc, -⟩ | ⟨-, h₂⟩
    · simp [hErrno] at hRc
    rw [World.clear_of_errno hErrno] at h₂
    obtain ⟨msg', t, hMsg, h₃⟩ := returns_bind.mp h₂
    obtain ⟨hSome, rfl⟩ := returns_orAssert.mp hMsg
    cases hSome
    obtain ⟨hbuf', t', hHbuf, h₄⟩ := returns_bind.mp h₃
    obtain ⟨hSome, rfl⟩ := returns_orAssert.mp hHbuf
    cases hSome
    obtain ⟨rc, w₃', hProcess, h₅⟩ := returns_bind.mp h₄
    cases rc with
    | false =>
      rcases returns_checkElse.mp h₅ with ⟨-, hExit⟩ | ⟨hRc, -⟩
      · obtain ⟨b, t, hLeave, hPure⟩ := returns_bind.mp hExit
        obtain ⟨-, rfl, -⟩ := returns_leave.mp hLeave
        cases (returns_pure.mp hPure).1
        exact .inl rfl
      · cases hRc
    | true =>
      have hTaken : w₃'.errno = 0 := by
        obtain ⟨node, v, theirs, mine, session, name, hDecrypt, -, -, rfl⟩ :=
          initiatorProcessResponse_true.mp hProcess
        have hOpen := decryptNode_errno hDecrypt
        exact hOpen
      rcases returns_checkElse.mp h₅ with ⟨hRc, -⟩ | ⟨-, h₆⟩
      · simp [hTaken] at hRc
      rw [World.clear_of_errno hTaken] at h₆
      obtain ⟨-, hPair, rfl⟩ := returns_destroyReturn.mp h₆
      cases hPair
      exact .inr (.inr ⟨rfl, hbuf, msg, _, hWhole, hRecv, hProcess⟩)

/-- What ends the call with 1: a last message that was sent, or none. -/
theorem confirmReceiver_true {hdr : Option Nat} {w₃ : World D K S Wire}
    (h : Returns (confirmReceiver env true hdr) w₃ true w') :
    (∃ header w₄, Returns (initiatorSendFinal env) w₃ (none, header) w₄ ∧
      ∃ freed, nodeDestroy w₄.heap hdr = .ok freed) ∨
    ∃ imsg header w₄ w₅, Returns (initiatorSendFinal env) w₃ (some imsg, header) w₄ ∧
      Returns (frameSourceSend env (some header) (some imsg)) w₄ true w₅ ∧ w'.state = w₄.state := by
  obtain ⟨⟨imsg, header⟩, w₄, hBuild, h₁⟩ := returns_bind.mp h
  cases imsg with
  | none =>
    rcases returns_checkElse.mp h₁ with ⟨-, hExit⟩ | ⟨hRc, -⟩
    · obtain ⟨⟨-, hFreed, -⟩, -⟩ := returns_leave.mp hExit
      exact .inl ⟨header, w₄, hBuild, hFreed⟩
    · cases hRc
  | some imsg =>
    have hErrno := (initiatorSendFinal_cases hBuild).1
    rcases returns_checkElse.mp h₁ with ⟨hRc, -⟩ | ⟨-, h₂⟩
    · simp [hErrno] at hRc
    rw [World.clear_of_errno hErrno] at h₂
    obtain ⟨rc, w₅, hSend, h₃⟩ := returns_bind.mp h₂
    obtain ⟨b, t, hCheck, h₄⟩ := returns_bind.mp h₃
    obtain ⟨-, rfl⟩ := returns_check.mp hCheck
    obtain ⟨-, rfl, rfl⟩ := returns_leave.mp h₄
    exact .inr ⟨imsg, header, w₄, w₅, hBuild, hSend, (quiet_frameSourceSend hSend).1.state⟩

/-- The call returns 1 when the answer is missing, or through the last part. -/
theorem peerEstablishInitiator_true :
    Returns (peerEstablishInitiator env keyConfirm) w true w' ↔
      ∃ w₁, Returns (introduceInitiator env keyConfirm) w (.goOn true) w₁ ∧
        ((∃ hdr, Returns (hearReceiver env true) w₁ (.exit true, hdr) w') ∨
          ∃ hdr w₃, Returns (hearReceiver env true) w₁ (.goOn true, hdr) w₃ ∧
            Returns (confirmReceiver env true hdr) w₃ true w') := by
  constructor
  · intro h
    obtain ⟨p, w₁, hIntroduce, h₁⟩ := returns_bind.mp h
    rcases introduceInitiator_cases hIntroduce with rfl | ⟨rfl, -⟩
    · cases (returns_pure.mp h₁).1
    obtain ⟨⟨q, hdr⟩, w₃, hHear, h₂⟩ := returns_bind.mp h₁
    refine ⟨w₁, hIntroduce, ?_⟩
    rcases hearReceiver_cases hHear with rfl | ⟨rfl, -⟩ | ⟨rfl, -⟩
    · cases (returns_pure.mp h₂).1
    · obtain ⟨-, rfl⟩ := returns_pure.mp h₂
      exact .inl ⟨hdr, hHear⟩
    · exact .inr ⟨hdr, w₃, hHear, h₂⟩
  · rintro ⟨w₁, hIntroduce, ⟨hdr, hHear⟩ | ⟨hdr, w₃, hHear, hConfirm⟩⟩
    · refine returns_bind.mpr ⟨_, _, hIntroduce, returns_bind.mpr ⟨_, _, hHear, ?_⟩⟩
      exact returns_pure.mpr ⟨rfl, rfl⟩
    · exact returns_bind.mpr ⟨_, _, hIntroduce, returns_bind.mpr ⟨_, _, hHear, hConfirm⟩⟩

theorem Response.unique {hbuf hbuf' : Bytes} {msg msg' : Nat} {hdr hdr' : Option Nat}
    {w₁ w₂ w₂' w₃ w₃' : World D K S Wire} (h : Response env hbuf msg hdr w₁ w₂ w₃)
    (h' : Response env hbuf' msg' hdr' w₁ w₂' w₃') :
    hbuf = hbuf' ∧ msg = msg' ∧ hdr = hdr' ∧ w₂ = w₂' ∧ w₃ = w₃' := by
  obtain ⟨hFrame, rfl⟩ := h.recv.unique h'.recv
  cases hFrame
  obtain ⟨-, rfl⟩ := h.process.unique h'.process
  exact ⟨rfl, rfl, rfl, rfl, rfl⟩

theorem InitiatorServed.sound (hServed : InitiatorServed env keyConfirm w) :
    InitiatorSound env keyConfirm w := by
  intro w' hReturns
  obtain ⟨w₁, hIntroduce, ⟨hdr, hHear⟩ | ⟨hdr, w₃, hHear, hConfirm⟩⟩ :=
    peerEstablishInitiator_true.mp hReturns
  · rcases hearReceiver_cases hHear with h | ⟨-, hbuf, hdr', w₂, hRecv, freed, hFreed⟩ | ⟨h, -⟩
    · cases h
    · exact absurd hFreed (hServed.hears hIntroduce hbuf hdr' w₂ hRecv freed)
    · cases h
  rcases hearReceiver_cases hHear with h | ⟨h, -⟩ | ⟨-, hbuf, msg, w₂, hResponse⟩
  · cases h
  · cases h
  obtain ⟨header, w₄, hBuild, freed, hFreed⟩ | ⟨imsg, header, w₄, w₅, hBuild, hSend, hState⟩ :=
    confirmReceiver_true hConfirm
  · exact absurd hFreed (hServed.builds hIntroduce hResponse header w₄ hBuild freed)
  rcases introduceInitiator_cases hIntroduce with h | ⟨-, raw, hIntroduction, hNonce⟩
  · cases h
  obtain ⟨hEcho, hMine, hTheirs⟩ := hServed.genuine hReturns hIntroduce hResponse
  obtain ⟨hQuiet, -, ⟨t, hTree⟩, -⟩ := frameSourceRecv_body hResponse.recv
  obtain ⟨node, v, theirs, mine, session, name, hDecrypt, hDecons, ⟨freed, hFreed⟩, rfl⟩ :=
    initiatorProcessResponse_true.mp hResponse.process
  have hResponded := hEcho.responded hTree hDecrypt hDecons hFreed
  rw [hQuiet.state, hNonce] at hResponded
  exact ⟨hIntroduction, hResponse, hResponded, hBuild, initiatorSendFinal_final hBuild hMine hTheirs,
    hSend, hState⟩

end Establish

/-! ## Samples -/

end Utu.Protocol
