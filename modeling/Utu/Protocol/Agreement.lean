import Utu.Protocol.Rounds

/-!
# Agreement

The handshake as a whole. Two parties that get each other's messages as they
were sent come to the same session keys, nonces and names, and the traffic
behind it stays in step, if the names fit into the letters.
-/

namespace Utu.Protocol
open Stackish LinkedForest Procedure Channel
set_option autoImplicit false

variable {D K S U : Type}

/-! ## Messages between two parties -/

section Messages
variable {α β : Type} {m : Nat → Call D K S U α} {w w' : World D K S U} {t : Stackish.Tree D}

/-- The call gives a message, and from there it goes on. -/
def Gives (m : Nat → Call D K S U α) (result : Nat → β → α) (w : World D K S U)
    (k : Stackish.Tree D → β → World D K S U → Prop) : Prop :=
  ∃ node b w' t, Settles m w (result node b) w' ∧ w'.Holds node t ∧ k t b w'

/-- Wherever the message is in memory when it has come, from there it goes on. -/
def World.Gets (w : World D K S U) (t : Stackish.Tree D) (k : Nat → World D K S U → Prop) : Prop :=
  ∀ heap node, (w.grown heap).Holds node t → k node (w.grown heap)

/-- The call returns 1, and from there it goes on. -/
def Succeeds (m : Nat → Call D K S U Bool) (w : World D K S U) (k : World D K S U → Prop) : Prop :=
  ∃ w', Settles m w true w' ∧ k w'

theorem gives_iff {k : Stackish.Tree D → β → World D K S U → Prop} {node : Nat} {b : β} (result : Nat → β → α)
    (hInj : ∀ node b node' b', result node b = result node' b' → node = node' ∧ b = b')
    (hRuns : Settles m w (result node b) w') (hTree : w'.Holds node t) : Gives m result w k ↔ k t b w' := by
  constructor
  · rintro ⟨node', b', v, t', hRuns', hTree', hk⟩
    obtain ⟨hResult, rfl⟩ := hRuns.unique hRuns'
    obtain ⟨rfl, rfl⟩ := hInj _ _ _ _ hResult
    obtain rfl := Represents.unique hTree hTree'
    exact hk
  · intro hk
    exact ⟨node, b, w', t, hRuns, hTree, hk⟩

theorem gets_iff {k : Nat → World D K S U → Prop} {c : Prop} {heap : Heap D} {node : Nat}
    (hSome : Represents heap none (some node) t)
    (hAll : ∀ heap node, (w.grown heap).Holds node t → (k node (w.grown heap) ↔ c)) : w.Gets t k ↔ c := by
  constructor
  · intro h
    exact (hAll heap node hSome).mp (h heap node hSome)
  · intro hc heap' node' hHolds
    exact (hAll heap' node' hHolds).mpr hc

theorem succeeds_iff {m : Nat → Call D K S U Bool} {k : World D K S U → Prop} (hRuns : Settles m w true w') :
    Succeeds m w k ↔ k w' := by
  constructor
  · rintro ⟨v, hRuns', hk⟩
    obtain ⟨-, rfl⟩ := hRuns.unique hRuns'
    exact hk
  · intro hk
    exact ⟨w', hRuns, hk⟩

end Messages

/-! ## The handshake -/

/-- Keys, nonces and names of the receiver and the initiator agree. -/
structure Agreed (r i : World D K S U) : Prop where
  initiatorKey : r.state.them.skey = i.state.me.skey
  receiverKey : r.state.me.skey = i.state.them.skey
  initiatorNonce : r.state.them.nonce = i.state.me.nonce
  receiverNonce : r.state.me.nonce = i.state.them.nonce
  initiatorName : r.state.them.name = i.state.me.name
  receiverName : i.state.them.name = r.state.me.name

/-- Two parties with nothing on its way. -/
def lineBetween (r i : World D K S U) : Line D K S U where
  ends
    | .left => r
    | .right => i
  inbox _ := []

section Handshake
variable (env : Env D K S)

/-- The initiator sends the receiver's nonce back, and the receiver is done. -/
def Concludes (r i : World D K S U) : Prop :=
  Gives (fun fuel => initiatorSendFinal { env with fuel }) (fun node header => (some node, header)) i
    fun final header i' =>
    r.Gets final fun msg v =>
      Succeeds (fun fuel => receiverDone { env with fuel } header msg) v fun r' =>
        Agreed r' i' ∧ (lineBetween r' i').Synchronous env

/-- The receiver answers, and the initiator takes the answer. -/
def Responds (r i : World D K S U) : Prop :=
  Gives (fun fuel => receiverSendFinal { env with fuel }) (fun node header => (some node, header)) r
    fun response header r' => i.Gets response fun msg v =>
      Succeeds (fun fuel => initiatorProcessResponse { env with fuel } header msg) v fun i' => Concludes env r' i'

/-- The initiator takes the first message and introduces itself. -/
def Identifies (confirmR confirmI : KeyConfirm D K S U) (hello : Stackish.Tree D) (r i : World D K S U) : Prop :=
  i.Gets hello fun recvhdr v =>
    Gives (fun fuel => initiatorStart { env with fuel } recvhdr confirmI) (fun node hbuf => (some node, some hbuf)) v
      fun identity hbuf i' => r.Gets identity fun payload v' =>
        Succeeds (fun fuel => receiverProcessResponse { env with fuel } hbuf payload confirmR) v' fun r' =>
          Responds env r' i'

/-- All seven calls succeed, the parties agree, and every packet from then on decrypts to what was sent. -/
def HandshakeAgrees (confirmR confirmI : KeyConfirm D K S U) (r i : World D K S U) : Prop :=
  Gives (fun fuel => receiverStart { env with fuel }) (fun node (_ : Unit) => some node) r fun hello _ r' =>
    Identifies env confirmR confirmI hello r' i

end Handshake

/-! ## What is assumed -/

/-- The key is exported, and what is imported of it stands for it. -/
def Exports (ltc : Ltc K S) (key : K) (pub : Bytes) (pk : K) : Prop :=
  ltc.eccExport .pkPublic key = some pub ∧ pub.length ≤ eccBufSize ∧ ltc.eccImport pub = some pk

/-- The library works for the keys of the two parties: they can be exported and imported, the secret they share is the
same from both sides, keys can be scheduled, and CCM decryption inverts encryption. -/
structure SoundExchange (ltc : Ltc K S) (receiver initiator : K) : Prop where
  ccm : SoundCcm ltc
  schedules : ∀ session : Bytes, session.length = keyLength → ∃ skey, ltc.rijndaelSetup (some session) = some skey
  receiverKey : ∃ pub pk, Exports ltc receiver pub pk
  initiatorKey : ∃ pub pk, Exports ltc initiator pub pk
  shares : ∀ {pubR pkR pubI pkI}, Exports ltc receiver pubR pkR → Exports ltc initiator pubI pkI →
    ∃ secret shared, ltc.eccSharedSecret initiator pkR = some secret ∧ ltc.eccSharedSecret receiver pkI = some secret ∧
      ltc.rijndaelSetup (some secret) = some shared

/-- A party with a name and a session key that will draw these nonces. -/
structure Ready (w : World D K S U) (name : PeerName) (session : Bytes) (nonces : List Bytes) : Prop where
  name_eq : w.state.me.name = some name.text
  session_eq : w.state.me.session = some session
  length : session.length = keyLength
  random : ∃ rest, w.random = nonces ++ rest
  nonces : ∀ raw ∈ nonces, raw.length = nonceLength

/-! ## The proof -/

section Proof
variable {env : Env D K S} {r i : World D K S U}

/-- The two parties know each other and share a key, and their nonces are in step. -/
structure InTouch (r i : World D K S U) : Prop where
  receiverErrno : r.errno = 0
  initiatorErrno : i.errno = 0
  shared : r.state.shared = i.state.shared
  initiatorSession : r.state.them.session = i.state.me.session
  receiverSession : i.state.them.session = r.state.me.session
  initiatorName : r.state.them.name = i.state.me.name
  receiverName : i.state.them.name = r.state.me.name
  initiatorNonce : r.state.them.nonce = i.state.me.nonce
  receiverNonce : r.state.me.nonce = i.state.them.nonce

theorem Agreed.synchronous (hCcm : SoundCcm env.ltc) (hAgreed : Agreed r i) (hR : r.errno = 0) (hI : i.errno = 0) :
    (lineBetween r i).Synchronous env := by
  refine Line.synchronous_of_agreed hCcm (fun s => rfl) ?_ ?_ ?_
  · intro s
    cases s with
    | left => exact hR
    | right => exact hI
  · intro s
    cases s with
    | left => exact hAgreed.receiverKey
    | right => exact hAgreed.initiatorKey.symm
  · intro s
    cases s with
    | left => exact hAgreed.receiverNonce
    | right => exact hAgreed.initiatorNonce.symm

/-- Parties in touch conclude the handshake. -/
theorem concludes (hCcm : SoundCcm env.ltc) (hTouch : InTouch r i) {mine theirs : S}
    (hMine : env.ltc.rijndaelSetup i.state.me.session = some mine)
    (hTheirs : env.ltc.rijndaelSetup i.state.them.session = some theirs) : Concludes env r i := by
  obtain ⟨msg, heap, t, hSend, hMsg, hSeals⟩ := returns_initiatorSendFinal hCcm hTouch.initiatorErrno hMine hTheirs
  rw [← hTouch.shared, ← hTouch.receiverNonce] at hSeals
  let i' : World D K S U := { i with heap, state := i.state.advance.finalize mine theirs env.ltc.noSkey }
  have hRuns : Settles (fun fuel => initiatorSendFinal { env with fuel }) i (some msg, emptyHeader) i' :=
    settles_of_returns fun _ => hSend
  have hHeld : i'.Holds msg t := hMsg
  refine (gives_iff (fun node header => (some node, header)) (by simp) hRuns hHeld).mpr fun heap' node hHolds => ?_
  obtain ⟨heap'', hDone⟩ := settles_receiverDone (w := r.grown heap') hCcm hTouch.receiverErrno hHolds hSeals
    (show env.ltc.rijndaelSetup r.state.me.session = some theirs from hTouch.receiverSession ▸ hTheirs)
    (show env.ltc.rijndaelSetup r.state.them.session = some mine from hTouch.initiatorSession ▸ hMine)
  refine (succeeds_iff hDone).mpr ?_
  have hAgreed : Agreed { r with heap := heap'', state := r.state.bump.finalize theirs mine env.ltc.noSkey } i' :=
    ⟨rfl, rfl, hTouch.initiatorNonce, congrArg Nonce.inc hTouch.receiverNonce, hTouch.initiatorName,
      hTouch.receiverName⟩
  exact ⟨hAgreed, hAgreed.synchronous hCcm hTouch.receiverErrno hTouch.initiatorErrno⟩

/-- The receiver knows the initiator and shares a key with it. -/
structure Introduced (r i : World D K S U) : Prop where
  receiverErrno : r.errno = 0
  initiatorErrno : i.errno = 0
  shared : r.state.shared = i.state.shared
  session : r.state.them.session = i.state.me.session
  name : r.state.them.name = i.state.me.name
  nonce : r.state.them.nonce = i.state.me.nonce

/-- The response is taken if the receiver's name got into it. -/
theorem responds_iff (hCcm : SoundCcm env.ltc)
    (hSchedules : ∀ session : Bytes, session.length = keyLength →
      ∃ skey, env.ltc.rijndaelSetup (some session) = some skey)
    (hKnown : Introduced r i) {name : PeerName} {session theirs raw : Bytes} (hReady : Ready r name session [raw])
    (hTheirs : i.state.me.session = some theirs) (hLength : theirs.length = keyLength) :
    Responds env r i ↔ name.Fits := by
  obtain ⟨rest, hRandom⟩ := hReady.random
  obtain ⟨msg, heap, t, hSend, hMsg, hSeals⟩ := returns_receiverSendFinal hCcm hKnown.receiverErrno hReady.name_eq
    hReady.session_eq hReady.length hRandom (hReady.nonces raw (List.mem_singleton_self raw))
  rw [hKnown.shared, hKnown.nonce] at hSeals
  let r' : World D K S U := { r with heap, random := rest, state := (r.state.draw (Nonce.ofRaw raw)).advance }
  have hRuns : Settles (fun fuel => receiverSendFinal { env with fuel }) r (some msg, emptyHeader) r' :=
    settles_of_returns fun _ => hSend
  have hHeld : r'.Holds msg t := hMsg
  rw [Responds, gives_iff (fun node header => (some node, header)) (by simp) hRuns hHeld]
  refine gets_iff hMsg fun heap' node hHolds => ?_
  by_cases hFits : name.Fits
  · rw [PeerName.sent, if_pos hFits] at hSeals
    obtain ⟨heap'', hProcess⟩ := settles_initiatorProcessResponse (w := i.grown heap') hCcm hKnown.initiatorErrno hHolds
      hFits hReady.length hSeals
    rw [succeeds_iff hProcess]
    refine iff_of_true ?_ hFits
    obtain ⟨mineKey, hMineKey⟩ := hSchedules theirs hLength
    obtain ⟨theirKey, hTheirKey⟩ := hSchedules session hReady.length
    rw [← hTheirs] at hMineKey
    exact concludes hCcm ⟨hKnown.receiverErrno, hKnown.initiatorErrno, hKnown.shared, hKnown.session,
      hReady.session_eq.symm, hKnown.name, hReady.name_eq.symm, congrArg Nonce.inc hKnown.nonce, rfl⟩ hMineKey hTheirKey
  · rw [PeerName.sent, if_neg hFits] at hSeals
    refine iff_of_false ?_ hFits
    rintro ⟨w', hProcess, -⟩
    exact initiatorProcessResponse_nameless (w := i.grown heap') hCcm hKnown.initiatorErrno hHolds hReady.length hSeals
      hProcess

/-- The identity is taken if the initiator's name got into it. -/
theorem identifies_iff (hExchange : SoundExchange env.ltc r.state.me.key i.state.me.key)
    {confirmR confirmI : KeyConfirm D K S U} (hConfirmR : confirmR.Confirms) (hConfirmI : confirmI.Confirms)
    (hErrno : r.errno = 0) (hErrno' : i.errno = 0) {nameR nameI : PeerName} {sessionR sessionI rawR rawI : Bytes}
    (hReady : Ready r nameR sessionR [rawR]) (hReady' : Ready i nameI sessionI [rawI]) {pub : Bytes} {pk : K}
    (hExports : Exports env.ltc r.state.me.key pub pk) {node : Nat} {heap : Heap D}
    (hHello : Represents heap none (some node) ((helloElems r.state.me.nonce pub).tree (some headerName))) :
    Identifies env confirmR confirmI ((helloElems r.state.me.nonce pub).tree (some headerName)) r i ↔
      nameR.Fits ∧ nameI.Fits := by
  obtain ⟨pubI, pkI, hExportsI⟩ := hExchange.initiatorKey
  obtain ⟨secret, shared, hSecretI, hSecretR, hShared⟩ := hExchange.shares hExports hExportsI
  have hMeetsR : Meets env.ltc i.state.me.key pub pk shared := ⟨hExports.2.2, secret, hSecretI, hShared⟩
  have hMeetsI : Meets env.ltc r.state.me.key pubI pkI shared := ⟨hExportsI.2.2, secret, hSecretR, hShared⟩
  obtain ⟨rest, hRandom⟩ := hReady'.random
  refine gets_iff hHello fun heap₁ recvhdr hRecvhdr => ?_
  obtain ⟨msg, heap₂, data, t, hStart, hMsg, hSeals⟩ :=
    returns_initiatorStart (w := i.grown heap₁) hExchange.ccm hConfirmI
    hErrno' hRecvhdr hMeetsR hExportsI.1 hExportsI.2.1 hReady'.name_eq hReady'.session_eq hReady'.length hRandom
    (hReady'.nonces rawI (List.mem_singleton_self rawI))
  let i' : World D K S U := { i with heap := heap₂, data, random := rest, state :=
    ((i.state.meet pk r.state.me.nonce shared).draw (Nonce.ofRaw rawI)).advance }
  have hRuns : Settles (fun fuel => initiatorStart { env with fuel } recvhdr confirmI) (i.grown heap₁)
      (some msg, some (headerDocument pubI : Document D).encode) i' := settles_of_returns fun _ => hStart
  have hHeld : i'.Holds msg t := hMsg
  rw [gives_iff (fun node hbuf => (some node, some hbuf)) (by simp) hRuns hHeld]
  refine gets_iff hMsg fun heap₃ payload hPayload => ?_
  by_cases hFits : nameI.Fits
  · rw [PeerName.sent, if_pos hFits] at hSeals
    obtain ⟨heap₄, data', hProcess⟩ :=
      settles_receiverProcessResponse (w := r.grown heap₃) hExchange.ccm hConfirmR hErrno
      hPayload hMeetsI hExportsI.2.1 hFits hReady'.length hSeals
    let r' : World D K S U := { r with heap := heap₄, data := data', state :=
      (r.state.meet pkI r.state.them.nonce shared).bump.learn (Nonce.ofRaw rawI) (some sessionI) (some nameI.text) }
    have hReadyNext : Ready r' nameR sessionR [rawR] :=
      ⟨hReady.name_eq, hReady.session_eq, hReady.length, hReady.random, hReady.nonces⟩
    have hKnown : Introduced r' i' :=
      ⟨hErrno, hErrno', rfl, hReady'.session_eq.symm, hReady'.name_eq.symm, rfl⟩
    rw [succeeds_iff hProcess, and_iff_left hFits]
    exact responds_iff hExchange.ccm hExchange.schedules hKnown hReadyNext hReady'.session_eq hReady'.length
  · rw [PeerName.sent, if_neg hFits] at hSeals
    refine iff_of_false ?_ fun h => hFits h.2
    rintro ⟨w', hProcess, -⟩
    exact receiverProcessResponse_nameless (w := r.grown heap₃) hExchange.ccm hConfirmR hErrno hPayload hMeetsI
      hExportsI.2.1 hReady'.length hSeals hProcess

section Whole
variable {first rawR rawI : Bytes} {rest : List Bytes}

/-- The receiver starts, and the rest is up to the first message. -/
theorem handshakeAgrees_iff_identifies (confirmR confirmI : KeyConfirm D K S U) (i : World D K S U)
    (hErrno : r.errno = 0)
    (hRandom : r.random = first :: rest) (hFirst : first.length = nonceLength) {pub : Bytes} {pk : K}
    (hExports : Exports env.ltc r.state.me.key pub pk) :
    ∃ node heap, Represents heap none (some node) ((helloElems (Nonce.ofRaw first) pub).tree (some headerName)) ∧
      (HandshakeAgrees env confirmR confirmI r i ↔
        Identifies env confirmR confirmI ((helloElems (Nonce.ofRaw first) pub).tree (some headerName))
          { r with heap, random := rest, state := r.state.draw (Nonce.ofRaw first) } i) := by
  obtain ⟨node, heap, hStart, hHello⟩ := returns_receiverStart hErrno hRandom hFirst hExports.1
  let r' : World D K S U := { r with heap, random := rest, state := r.state.draw (Nonce.ofRaw first) }
  have hRuns : Settles (fun fuel => receiverStart { env with fuel }) r (some node) r' :=
    settles_of_returns fun _ => hStart
  have hHeld : r'.Holds node ((helloElems (Nonce.ofRaw first) pub).tree (some headerName)) := hHello
  exact ⟨node, heap, hHello, gives_iff (b := ()) (fun node _ => some node) (by simp) hRuns hHeld⟩

variable {confirmR confirmI : KeyConfirm D K S U} {nameR nameI : PeerName} {sessionR sessionI : Bytes}

/-- Without an error left over, the names decide. -/
theorem handshakeAgrees_iff_fits (hExchange : SoundExchange env.ltc r.state.me.key i.state.me.key)
    (hConfirmR : confirmR.Confirms) (hConfirmI : confirmI.Confirms) (hReady : Ready r nameR sessionR [first, rawR])
    (hReady' : Ready i nameI sessionI [rawI]) (hErrno : r.errno = 0) (hErrno' : i.errno = 0) :
    HandshakeAgrees env confirmR confirmI r i ↔ nameR.Fits ∧ nameI.Fits := by
  obtain ⟨rest, hRandom⟩ := hReady.random
  obtain ⟨pub, pk, hExports⟩ := hExchange.receiverKey
  obtain ⟨node, heap, hHello, hIff⟩ := handshakeAgrees_iff_identifies confirmR confirmI i hErrno hRandom
    (hReady.nonces first (by simp)) hExports
  let r' : World D K S U := { r with heap, random := rawR :: rest, state := r.state.draw (Nonce.ofRaw first) }
  have hReadyNext : Ready r' nameR sessionR [rawR] := by
    refine ⟨hReady.name_eq, hReady.session_eq, hReady.length, ⟨rest, rfl⟩, fun raw hRaw => ?_⟩
    exact hReady.nonces raw (List.mem_cons_of_mem _ hRaw)
  rw [hIff]
  exact identifies_iff (r := r') hExchange hConfirmR hConfirmI hErrno hErrno' hReadyNext hReady' hExports hHello

/-- The handshake agrees and the session stays in step exactly when both names fit. -/
theorem handshakeAgrees_iff (hExchange : SoundExchange env.ltc r.state.me.key i.state.me.key)
    (hConfirmR : confirmR.Confirms) (hConfirmI : confirmI.Confirms) (hReady : Ready r nameR sessionR [first, rawR])
    (hReady' : Ready i nameI sessionI [rawI]) :
    HandshakeAgrees env confirmR confirmI r i ↔ r.errno = 0 ∧ i.errno = 0 ∧ nameR.Fits ∧ nameI.Fits := by
  obtain ⟨rest, hRandom⟩ := hReady.random
  have hFirst : first.length = nonceLength := hReady.nonces first (by simp)
  by_cases hErrno : r.errno = 0
  · by_cases hErrno' : i.errno = 0
    · simp only [hErrno, hErrno', true_and]
      exact handshakeAgrees_iff_fits hExchange hConfirmR hConfirmI hReady hReady' hErrno hErrno'
    · obtain ⟨pub, pk, hExports⟩ := hExchange.receiverKey
      obtain ⟨node, heap, hHello, hIff⟩ := handshakeAgrees_iff_identifies confirmR confirmI i hErrno hRandom hFirst
        hExports
      refine iff_of_false ?_ fun h => hErrno' h.2.1
      rw [hIff]
      intro h
      obtain ⟨msg, hbuf, w', t, ⟨n, hSettles⟩, -⟩ := h heap node hHello
      exact initiatorStart_stale (w := i.grown heap) hErrno' hHello (hSettles n (Nat.le_refl n))
  · refine iff_of_false ?_ fun h => hErrno h.1
    rintro ⟨node, b, w', t, ⟨n, hSettles⟩, -⟩
    exact receiverStart_stale hErrno hRandom hFirst (hSettles n (Nat.le_refl n))

end Whole

end Proof

/-! ## Two parties -/

def lettersName (n : Nat) : PeerName where
  text := letters n
  unquoted := letters_quote n
  noNul := letters_nul n

theorem fits_lettersName (n : Nat) : (lettersName n).Fits ↔ 2 * (n + 3) + 2 ≤ intMax := by
  rw [PeerName.Fits, lettersName, length_letters]

def partyWorld (name : PeerName) (random : List Bytes) : World Unit Unit Unit Wire :=
  ⟨[], 0, ⟨⟨some name.text, ⟨0, 0⟩, (), some (List.replicate keyLength 9), ()⟩, samplePeer none, ()⟩, random, ⟨[], []⟩⟩

def someNonce : Bytes := List.replicate nonceLength 1

theorem sampleLtc_sound : SoundExchange sampleLtc () () where
  ccm key nonce header text := by
    have hFlip : ((fun x : UInt8 => x ^^^ 85) ∘ fun x => x ^^^ 85) = id := by
      funext x
      simp
    refine ⟨_, _, rfl, ?_⟩
    simp [sampleLtc, hFlip]
  schedules _ _ := ⟨(), rfl⟩
  receiverKey := ⟨[7], (), rfl, by decide, rfl⟩
  initiatorKey := ⟨[7], (), rfl, by decide, rfl⟩
  shares _ _ := ⟨[8], (), rfl, rfl, rfl⟩

theorem confirmAny_confirms : confirmAny.Confirms := by
  intro w hErrno
  exact ⟨w.heap, w.data, returns_pure.mpr ⟨rfl, rfl⟩⟩

theorem partyWorld_ready (name : PeerName) (k : Nat) :
    Ready (partyWorld name (List.replicate k someNonce)) name (List.replicate keyLength 9)
      (List.replicate k someNonce) where
  name_eq := rfl
  session_eq := rfl
  length := by simp
  random := ⟨[], by simp [partyWorld]⟩
  nonces raw hRaw := by
    rw [List.eq_of_mem_replicate hRaw]
    simp [someNonce]

/-- A receiver with a short name and an initiator with a name of `n` letters. -/
def HandshakeOf (n : Nat) : Prop :=
  HandshakeAgrees sampleEnv confirmAny confirmAny (partyWorld (lettersName 1) [someNonce, someNonce])
    (partyWorld (lettersName n) [someNonce])

theorem handshakeAgrees_letters : HandshakeOf 2 :=
  (handshakeAgrees_iff sampleLtc_sound confirmAny_confirms confirmAny_confirms (partyWorld_ready (lettersName 1) 2)
    (partyWorld_ready (lettersName 2) 1)).mpr ⟨rfl, rfl, by decide, by decide⟩

/-- An initiator whose name has `2 ^ 30` letters cannot introduce itself. -/
theorem not_handshakeAgrees_letters :
    SoundExchange sampleLtc () () ∧ confirmAny.Confirms ∧
      Ready (partyWorld (lettersName 1) [someNonce, someNonce]) (lettersName 1) (List.replicate keyLength 9)
        [someNonce, someNonce] ∧
      Ready (partyWorld (lettersName (2 ^ 30)) [someNonce]) (lettersName (2 ^ 30)) (List.replicate keyLength 9)
        [someNonce] ∧
      ¬ HandshakeOf (2 ^ 30) := by
  have hReady : Ready (partyWorld (lettersName 1) [someNonce, someNonce]) (lettersName 1) (List.replicate keyLength 9)
      [someNonce, someNonce] := partyWorld_ready (lettersName 1) 2
  have hReady' : Ready (partyWorld (lettersName (2 ^ 30)) [someNonce]) (lettersName (2 ^ 30))
      (List.replicate keyLength 9) [someNonce] := partyWorld_ready (lettersName (2 ^ 30)) 1
  refine ⟨sampleLtc_sound, confirmAny_confirms, hReady, hReady', fun h => ?_⟩
  have hFits := (handshakeAgrees_iff_fits sampleLtc_sound confirmAny_confirms confirmAny_confirms hReady hReady' rfl
    rfl).mp h
  exact absurd ((fits_lettersName _).mp hFits.2) (by decide)

end Utu.Protocol
