import Utu.Client.Proxy
import Utu.Protocol.Initiator

/-!
# Connecting to a hub

`Proxy_connect` is cut where its result variable `rc` is left standing: the
exits behind the first write return what that write gave, also when it is the
hub's answer, the last message or the verification that failed.
-/

namespace Utu.Client
open Stackish Protocol LinkedForest Procedure
set_option autoImplicit false

section Calls
variable {D K S U : Type} {env : Env D K S}

/-! ## What the crypto functions leave alone -/

/-- The caller's data and the other side's key stay as they are. -/
structure Aside (w w' : World D K S U) : Prop where
  key : w'.state.them.key = w.state.them.key
  data : w'.data = w.data

instance : IsPreorder (World D K S U) Aside where
  refl _ := ⟨rfl, rfl⟩
  trans _ _ _ h h' := ⟨h'.key.trans h.key, h'.data.trans h.data⟩

theorem aside_check (c : Bool) : Keeps Aside (check c : Call D K S U Bool) := by
  intro w b w' h
  obtain ⟨-, rfl⟩ := returns_check.mp h
  exact ⟨rfl, rfl⟩

theorem aside_modifyState {f : CryptState K S → CryptState K S}
    (hf : ∀ st, (f st).them.key = st.them.key) :
    Keeps Aside (modifyState f : Call D K S U Unit) :=
  keeps_modify fun w => ⟨hf w.state, rfl⟩

theorem aside_cons (format : List (Piece D)) :
    Keeps Aside (cons format : Call D K S U (Option Nat)) := by
  intro w r w' h
  obtain ⟨heap, -, rfl⟩ := returns_cons.mp h
  exact ⟨rfl, rfl⟩

theorem aside_decons (root : Nat) (copy : Bool) (format : List Expect) :
    Keeps Aside (decons env root copy format : Call D K S U (Bool × List (Bound D))) := by
  intro w r w' h
  obtain ⟨-, rfl⟩ := returns_decons.mp h
  exact ⟨rfl, rfl⟩

theorem aside_parseSeq (buf : Bytes) (start : Nat) :
    Keeps Aside (parseSeq env buf start : Call D K S U (Option Nat × Nat)) := by
  intro w r w' h
  obtain ⟨p, -, -, rfl⟩ := returns_parseSeq.mp h
  exact ⟨rfl, rfl⟩

theorem aside_parse (buf : Bytes) : Keeps Aside (parse env buf : Call D K S U (Option Nat)) := by
  intro w r w' h
  obtain ⟨next, h⟩ := returns_parse.mp h
  exact aside_parseSeq buf 0 h

theorem aside_bstr (node : Option Nat) : Keeps Aside (bstr env node : Call D K S U Bytes) := by
  intro w r w' h
  obtain ⟨-, rfl⟩ := returns_bstr.mp h
  exact ⟨rfl, rfl⟩

theorem aside_destroy (node : Option Nat) : Keeps Aside (destroy node : Call D K S U Unit) := by
  intro w r w' h
  obtain ⟨-, rfl⟩ := returns_destroy.mp h
  exact ⟨rfl, rfl⟩

theorem aside_eccKeyBstr (key : K) (type : KeyType) :
    Keeps Aside (eccKeyBstr env key type : Call D K S U (Option Bytes)) := by
  intro w r w' h
  obtain ⟨-, rfl⟩ := returns_exportKey.mp h
  exact ⟨rfl, rfl⟩

theorem aside_createNonce : Keeps Aside (createNonce : Call D K S U Bool) := by
  refine keeps_bind (keeps_getThen ?_) fun raw => ?_
  · intro w r w' h
    cases hRandom : w.random with
    | nil =>
      rw [hRandom] at h
      obtain ⟨-, rfl⟩ := returns_pure.mp h
      exact ⟨rfl, rfl⟩
    | cons raw rest =>
      rw [hRandom] at h
      simp only [returns_bind, returns_set, returns_pure] at h
      obtain ⟨-, t, rfl, -, rfl⟩ := h
      exact ⟨rfl, rfl⟩
  · cases raw with
    | none => exact aside_check false
    | some raw => exact keeps_bind (aside_modifyState fun _ => rfl) fun _ => aside_check true

theorem aside_encryptNode (key : S) (header : Bytes) (payload : Option Nat) :
    Keeps Aside (encryptNode env key header payload : Call D K S U (Option Nat)) := by
  refine keeps_bind (aside_bstr payload) fun pbuf => keeps_bind (aside_check true) fun go => ?_
  refine keeps_ite (keeps_pure none) (keeps_bind ?_ fun msg => ?_)
  · refine keeps_bind keeps_get fun w => keeps_bind (aside_check _) fun go => ?_
    refine keeps_ite (keeps_pure none) ?_
    split
    · exact keeps_pure none
    · exact keeps_bind (aside_modifyState fun _ => rfl) fun _ => aside_cons _
  · refine keeps_bind (aside_check _) fun go => ?_
    exact keeps_ite (keeps_pure none) (keeps_pure msg)

theorem aside_openPayload (key : S) (header : Bytes) (bound : List (Bound D)) :
    Keeps Aside (openPayload env key header bound : Call D K S U (Option Bytes)) := by
  refine keeps_bind keeps_get fun w => ?_
  dsimp only
  split
  · exact keeps_bind (aside_check false) fun _ => keeps_pure _
  · refine keeps_bind (keeps_modify fun _ => ⟨rfl, rfl⟩) fun _ => ?_
    refine keeps_bind (aside_check true) fun go => keeps_ite (keeps_pure _) ?_
    refine keeps_bind (aside_modifyState fun _ => rfl) fun _ => keeps_bind keeps_get fun w => ?_
    refine keeps_bind (aside_check _) fun go => ?_
    exact keeps_ite (keeps_pure none) (keeps_pure _)

theorem aside_decryptNode (key : S) (header : Bytes) (packet : Nat) :
    Keeps Aside (decryptNode env key header packet : Call D K S U (Option Nat)) := by
  refine keeps_bind (keeps_bind (aside_decons _ _ _) fun r => ?_) fun plain => ?_
  · refine keeps_bind keeps_get fun w => keeps_bind (aside_check _) fun go => ?_
    exact keeps_ite (keeps_pure _) (aside_openPayload key header _)
  · cases plain with
    | none => exact keeps_bind (aside_check false) fun _ => keeps_pure none
    | some pbuf =>
      refine keeps_bind (aside_check _) fun go => keeps_ite (keeps_pure none) ?_
      refine keeps_bind (aside_parse pbuf) fun payload => ?_
      exact keeps_bind (aside_check _) fun _ => keeps_pure payload

theorem aside_destroyReturn {α : Type} (node : Option Nat) (a : α) :
    Keeps Aside (destroy node >>= fun _ => pure a : Call D K S U α) :=
  keeps_bind (aside_destroy node) fun _ => keeps_pure a

theorem aside_takeResponse (payload : Nat) :
    Keeps Aside (takeResponse env payload : Call D K S U Bool) := by
  refine keeps_bind (aside_decons _ _ _) fun r => keeps_bind keeps_get fun w => ?_
  refine keeps_bind (aside_modifyState fun _ => rfl) fun _ => keeps_bind keeps_get fun w => ?_
  refine keeps_bind (aside_check _) fun go => keeps_ite (aside_destroyReturn _ _) ?_
  refine keeps_bind (aside_check _) fun go => keeps_ite (aside_destroyReturn _ _) ?_
  exact keeps_bind (aside_check _) fun _ => aside_destroyReturn _ _

theorem aside_initiatorProcessResponse (header : Bytes) (msg : Nat) :
    Keeps Aside (initiatorProcessResponse env header msg : Call D K S U Bool) := by
  refine keeps_bind keeps_get fun w => keeps_bind (aside_decryptNode _ header msg) fun payload => ?_
  cases payload with
  | none => exact keeps_bind (aside_check false) fun _ => keeps_pure false
  | some payload =>
    refine keeps_bind (aside_check true) fun go => ?_
    exact keeps_ite (aside_destroyReturn _ _) (aside_takeResponse payload)

theorem aside_finalizeSession : Keeps Aside (finalizeSession env : Call D K S U Bool) := by
  refine keeps_bind keeps_get fun w => keeps_bind (aside_modifyState fun _ => rfl) fun _ => ?_
  refine keeps_bind (aside_check _) fun go => keeps_ite ?_ ?_
  · exact keeps_bind (aside_modifyState fun _ => rfl) fun _ => keeps_pure _
  · refine keeps_bind (aside_modifyState fun _ => rfl) fun _ => keeps_bind (aside_check _) fun _ => ?_
    exact keeps_bind (aside_modifyState fun _ => rfl) fun _ => keeps_pure _

theorem aside_initiatorSendFinal :
    Keeps Aside (initiatorSendFinal env : Call D K S U (Option Nat × Bytes)) := by
  refine keeps_bind keeps_get fun w => keeps_bind (aside_cons _) fun payload => ?_
  refine keeps_bind (aside_check _) fun go => keeps_ite (aside_destroyReturn _ _) ?_
  refine keeps_bind (aside_encryptNode _ _ payload) fun msg => keeps_bind (aside_check _) fun go => ?_
  refine keeps_ite (aside_destroyReturn _ _) (keeps_bind aside_finalizeSession fun rc => ?_)
  exact keeps_bind (aside_check rc) fun _ => aside_destroyReturn _ _

/-- The shared key is agreed on behind a confirmation, and nothing of this changes again before the
initiator's first message is built. -/
theorem initiatorStart_confirmed {recvhdr msg : Nat} {hbuf : Option Bytes}
    {keyConfirm : KeyConfirm D K S U} {w w' : World D K S U}
    (h : Returns (initiatorStart env recvhdr keyConfirm) w (some msg, hbuf) w') :
    ∃ v v' : World D K S U, v.data = w.data ∧ Returns keyConfirm.run v true v' ∧ Aside v' w' := by
  obtain ⟨rc, keyed, hKey, h₁⟩ := returns_bind.mp h
  have hRest : Aside keyed w' := by
    refine (keeps_bind (aside_check rc) fun go => keeps_ite (keeps_pure _) ?_ :
      Keeps Aside _) h₁
    refine keeps_bind keeps_get fun v => keeps_bind (aside_eccKeyBstr _ _) fun eccKey => ?_
    refine keeps_bind (aside_check _) fun go => keeps_ite (keeps_pure _) ?_
    refine keeps_bind (aside_cons _) fun header => keeps_bind (aside_bstr header) fun hbuf => ?_
    refine keeps_bind aside_createNonce fun drawn => keeps_ite (aside_destroyReturn _ _) ?_
    refine keeps_bind keeps_get fun v => keeps_bind (aside_cons _) fun payload => ?_
    refine keeps_bind (aside_check _) fun go => keeps_ite ?_ ?_
    · exact keeps_bind (aside_destroy _) fun _ => aside_destroyReturn _ _
    refine keeps_bind (aside_encryptNode _ _ payload) fun msg => keeps_bind (aside_check _) fun _ => ?_
    exact keeps_bind (aside_destroy _) fun _ => aside_destroyReturn _ _
  rcases returns_checkElse.mp h₁ with ⟨-, hExit⟩ | ⟨hRc, -⟩
  · cases (returns_pure.mp hExit).1
  obtain rfl := (Bool.and_eq_true_iff.mp hRc).1
  obtain ⟨r, w₁, hDecons, h₂⟩ := returns_bind.mp hKey
  have hData₁ := (aside_decons _ _ _ hDecons).data
  obtain ⟨u, w₂, hNonce, h₃⟩ := returns_bind.mp h₂
  obtain rfl := returns_modifyState.mp hNonce
  rcases returns_checkElse.mp h₃ with ⟨-, hExit⟩ | ⟨-, h₄⟩
  · cases (returns_pure.mp hExit).1
  obtain ⟨s, t, hGet, h₅⟩ := returns_bind.mp h₄
  obtain ⟨rfl, rfl⟩ := returns_get.mp hGet
  obtain ⟨imported, w₃, hImport, h₆⟩ := returns_bind.mp h₅
  obtain ⟨key, rfl⟩ := importTheirKey_eq hImport
  rcases returns_checkElse.mp h₆ with ⟨-, hExit⟩ | ⟨-, h₇⟩
  · cases (returns_pure.mp hExit).1
  obtain ⟨confirmed, w₄, hConfirm, h₈⟩ := returns_bind.mp h₇
  have hBehind : Aside w₄ keyed := by
    refine (keeps_bind (aside_check confirmed) fun go => keeps_ite (keeps_pure _) ?_ :
      Keeps Aside _) h₈
    refine keeps_bind keeps_get fun v => keeps_bind (aside_check _) fun go => keeps_ite (keeps_pure _) ?_
    refine keeps_bind (aside_modifyState fun _ => rfl) fun _ => keeps_bind (aside_check _) fun go => ?_
    exact keeps_ite (keeps_pure _) (keeps_pure _)
  rcases returns_checkElse.mp h₈ with ⟨-, hExit⟩ | ⟨hTrue, -⟩
  · cases (returns_pure.mp hExit).1
  obtain rfl := (Bool.and_eq_true_iff.mp hTrue).1
  refine ⟨_, w₄, ?_, hConfirm, trans_of Aside hBehind hRest⟩
  exact hData₁

end Calls

section Connect
variable {D K S : Type} (env : Env D K S)

/-! ## What the proxy's own functions leave alone -/

/-- Nodes are added; the crypto state and the connection stay as they are. -/
structure Steady (w w' : World D K S Link) : Prop where
  heap : Extends w.heap w'.heap
  state : w'.state = w.state
  conn : w'.data.conn = w.data.conn

instance : IsPreorder (World D K S Link) Steady where
  refl _ := ⟨Extends.refl _, rfl, rfl⟩
  trans _ _ _ h h' := ⟨h.heap.trans h'.heap, h'.state.trans h.state, h'.conn.trans h.conn⟩

theorem Steady.same (w : World D K S Link) : Steady w w := refl_of Steady w

variable {env}

theorem steady_check (c : Bool) : Keeps Steady (check c : Step D K S Bool) := by
  intro w b w' h
  obtain ⟨-, rfl⟩ := returns_check.mp h
  exact ⟨Extends.refl _, rfl, rfl⟩

theorem steady_assertThat (c : Bool) (what : String) :
    Keeps Steady (assertThat c what : Step D K S Unit) :=
  keeps_ite (keeps_pure ()) (keeps_throw _)

theorem steady_orAssert {α : Type} (what : String) (o : Option α) :
    Keeps Steady (orAssert what o : Step D K S α) := by
  intro w a w' h
  obtain ⟨-, rfl⟩ := returns_orAssert.mp h
  exact Steady.same w'

theorem steady_destroy (node : Option Nat) : Keeps Steady (destroy node : Step D K S Unit) := by
  intro w u w' h
  obtain ⟨-, rfl⟩ := returns_destroy.mp h
  exact Steady.same w'

theorem steady_cons {format : List (Piece D)} (hNew : ∀ p ∈ format, p.makesNew = true) :
    Keeps Steady (cons format : Step D K S (Option Nat)) := by
  intro w r w' h
  obtain ⟨heap, hCons, rfl⟩ := returns_cons.mp h
  exact ⟨nodeCons_extends hNew hCons, rfl, rfl⟩

theorem steady_eccKeyBstr (key : K) (type : KeyType) :
    Keeps Steady (eccKeyBstr env key type : Step D K S (Option Bytes)) := by
  intro w r w' h
  obtain ⟨-, rfl⟩ := returns_exportKey.mp h
  exact ⟨Extends.refl _, rfl, rfl⟩

theorem steady_catbstr (str : Bytes) (node : Option Nat) : Keeps Steady (catbstr env str node) :=
  keeps_bind keeps_get fun _ => keeps_lift _

theorem steady_nextWrite : Keeps Steady (nextWrite : Step D K S Writing) := by
  refine keeps_getThen fun w r w' h => ?_
  simp only [returns_bind, returns_set, returns_pure] at h
  obtain ⟨-, t, rfl, -, rfl⟩ := h
  exact ⟨Extends.refl _, rfl, rfl⟩

theorem steady_writeHeaderNode (fd : Int) (header : Option Bytes) (body : Option Nat) :
    Keeps Steady (writeHeaderNode env fd header body) := by
  refine keeps_bind (steady_orAssert _ header) fun header => ?_
  refine keeps_bind (steady_assertThat _ _) fun _ => keeps_bind (steady_catbstr header body) fun _ => ?_
  refine keeps_bind steady_nextWrite fun r => ?_
  refine keeps_bind (keeps_modify fun _ => ⟨Extends.refl _, rfl, rfl⟩) fun _ => ?_
  exact keeps_bind (steady_check _) fun _ => keeps_pure _

theorem steady_writenodes (fd : Int) (header body : Option Nat) :
    Keeps Steady (writenodes env fd header body) := by
  refine keeps_bind (steady_orAssert _ header) fun header => keeps_bind (steady_assertThat _ _) fun _ => ?_
  refine keeps_bind (steady_catbstr [] _) fun data => ?_
  refine keeps_bind (steady_writeHeaderNode fd _ body) fun rc => ?_
  exact keeps_bind (steady_check _) fun _ => keeps_pure _

theorem steady_proxyError (code : ErrorCode) (message : Option Bytes) :
    Keeps Steady (proxyError env code message) := by
  refine keeps_bind (steady_cons ?_) fun err => keeps_bind keeps_get fun w => ?_
  · simp [Piece.makesNew]
  · refine keeps_bind (keeps_lift _) fun _ => keeps_bind (steady_writenodes _ err none) fun _ => ?_
    exact steady_destroy err

theorem steady_checkErr {t : Step D K S Bool} (ht : Keeps Steady t) (code : ErrorCode)
    (message : String) : Keeps Steady (checkErr env t code message) := by
  refine keeps_bind ht fun b => keeps_ite (keeps_pure true) ?_
  refine keeps_bind (steady_proxyError code _) fun _ => keeps_bind ht fun b => ?_
  exact steady_check b

theorem steady_test (f : World D K S Link → Bool) : Keeps Steady (test f) :=
  keeps_bind keeps_get fun _ => keeps_pure _

theorem steady_fingerprintBstr (str : KeyRef) : Keeps Steady (fingerprintBstr env str) := by
  refine keeps_bind (keeps_lift _) fun key => ?_
  cases key with
  | none => exact keeps_throw _
  | some key =>
    refine keeps_bind (steady_check _) fun go => keeps_ite (keeps_pure _) ?_
    split
    · exact keeps_pure _
    · exact keeps_throw _
    · exact keeps_pure _

theorem steady_fingerprintKey (key : K) (type : KeyType) :
    Keeps Steady (fingerprintKey env key type) := by
  refine keeps_bind (steady_eccKeyBstr key type) fun outkey => ?_
  cases outkey with
  | none => exact keeps_bind (steady_check false) fun _ => keeps_pure none
  | some outkey =>
    refine keeps_bind (steady_check true) fun go => keeps_ite (keeps_pure none) ?_
    exact keeps_bind (steady_fingerprintBstr _) fun _ => keeps_pure _

theorem steady_proxyListenerSend (header body : Option Nat) :
    Keeps Steady (proxyListenerSend env header body) := by
  refine keeps_bind keeps_get fun w => keeps_bind (steady_writenodes _ header body) fun rc => ?_
  refine keeps_bind (steady_checkErr (keeps_pure _) _ _) fun go => keeps_ite (keeps_pure _) ?_
  exact keeps_bind (steady_destroy body) fun _ => keeps_bind (steady_destroy header) fun _ => keeps_pure _

theorem steady_keysMatch : Keeps Steady (keysMatch : Step D K S Bool) :=
  keeps_bind keeps_get fun _ => keeps_bind (keeps_lift _) fun _ => keeps_pure _

/-- The pointer still points at what it did, unless that was freed. -/
def KeyRef.Fades (a b : KeyRef) : Prop := b = a ∨ b = .freed

theorem KeyRef.Fades.trans {a b c : KeyRef} (h : a.Fades b) (h' : b.Fades c) : a.Fades c := by
  rcases h' with rfl | rfl
  · exact h
  · exact .inr rfl

/-- As `Steady`, but the two public keys of the hub may have been freed. -/
structure Fading (w w' : World D K S Link) : Prop where
  heap : Extends w.heap w'.heap
  state : w'.state = w.state
  name : w'.data.conn.host.name = w.data.conn.host.name
  key : w.data.conn.host.key.Fades w'.data.conn.host.key
  given : w.data.conn.hostGivenKey.Fades w'.data.conn.hostGivenKey

instance : IsPreorder (World D K S Link) Fading where
  refl _ := ⟨Extends.refl _, rfl, rfl, .inl rfl, .inl rfl⟩
  trans _ _ _ h h' := ⟨h.heap.trans h'.heap, h'.state.trans h.state, h'.name.trans h.name,
    h.key.trans h'.key, h.given.trans h'.given⟩

theorem Steady.fading {w w' : World D K S Link} (h : Steady w w') : Fading w w' :=
  ⟨h.heap, h.state, by rw [h.conn], .inl (by rw [h.conn]), .inl (by rw [h.conn])⟩

theorem fingerprintBstr_fades {str : KeyRef} {r : Option Bytes × KeyRef} {w w' : World D K S Link}
    (h : Returns (fingerprintBstr env str) w r w') : str.Fades r.2 := by
  obtain ⟨key, t, hRead, h₁⟩ := returns_bind.mp h
  cases key with
  | none => exact (returns_throw.mp h₁).elim
  | some key =>
    rcases returns_checkElse.mp h₁ with ⟨-, hExit⟩ | ⟨-, h₂⟩
    · rw [(returns_pure.mp hExit).1]
      exact .inl rfl
    split at h₂
    · rw [(returns_pure.mp h₂).1]
      exact .inl rfl
    · exact (returns_throw.mp h₂).elim
    · rw [(returns_pure.mp h₂).1]
      exact .inr rfl

theorem fading_proxyDumpInvalidState : Keeps Fading (proxyDumpInvalidState env) := by
  refine keeps_getThen fun w u w' h => ?_
  obtain ⟨⟨givenFp, given⟩, w₁, hGiven, h₁⟩ := returns_bind.mp h
  have hSteady₁ := steady_fingerprintBstr _ hGiven
  obtain ⟨u₁, w₂, hConn, h₂⟩ := returns_bind.mp h₁
  obtain rfl := returns_modify.mp hConn
  obtain ⟨⟨expectFp, expect⟩, w₃, hExpect, h₃⟩ := returns_bind.mp h₂
  have hSteady₃ := steady_fingerprintBstr _ hExpect
  obtain ⟨u₂, w₄, hConn, h₄⟩ := returns_bind.mp h₃
  obtain rfl := returns_modify.mp hConn
  have hSteady := steady_proxyError _ _ h₄
  refine trans_of Fading ?_ hSteady.fading
  refine ⟨hSteady₁.heap.trans hSteady₃.heap, hSteady₃.state.trans hSteady₁.state, ?_, ?_, ?_⟩
  · simp [hSteady₃.conn, hSteady₁.conn]
  · exact fingerprintBstr_fades hExpect
  · simpa [hSteady₃.conn] using fingerprintBstr_fades hGiven

/-- The callback of the client. -/
def confirmKey (env : Env D K S) : KeyConfirm D K S Link where
  run := proxyConfirmKey env
  keeps := by
    intro w b w' h
    obtain ⟨v, t, hGet, h₁⟩ := returns_bind.mp h
    obtain ⟨rfl, rfl⟩ := returns_get.mp hGet
    obtain ⟨given, w₁, hExport, h₂⟩ := returns_bind.mp h₁
    obtain ⟨-, rfl⟩ := returns_exportKey.mp hExport
    obtain ⟨u, w₂, hConn, h₃⟩ := returns_bind.mp h₂
    obtain rfl := returns_modify.mp hConn
    split at h₃
    · obtain ⟨-, rfl⟩ := returns_pure.mp h₃
      exact Extends.refl _
    · exact (returns_throw.mp h₃).elim
    · rcases returns_ite.mp h₃ with ⟨-, h₄⟩ | ⟨-, h₄⟩
      · obtain ⟨u, w₃, hClear, h₅⟩ := returns_bind.mp h₄
        obtain rfl := returns_modify.mp hClear
        obtain ⟨u, w₄, hDump, h₆⟩ := returns_bind.mp h₅
        obtain ⟨-, rfl⟩ := returns_pure.mp h₆
        exact (fading_proxyDumpInvalidState hDump).heap
      · obtain ⟨-, rfl⟩ := returns_pure.mp h₄
        exact Extends.refl _

/-- A key that was confirmed is remembered as it was exported. -/
theorem proxyConfirmKey_true {w w' : World D K S Link} (h : Returns (proxyConfirmKey env) w true w') :
    w'.data.conn.host = w.data.conn.host ∧ w'.state = w.state ∧
      ∀ key, w'.data.conn.hostGivenKey = .live key →
        env.ltc.eccExport .pkPublic w'.state.them.key = some key := by
  obtain ⟨v, t, hGet, h₁⟩ := returns_bind.mp h
  obtain ⟨rfl, rfl⟩ := returns_get.mp hGet
  obtain ⟨given, w₁, hExport, h₂⟩ := returns_bind.mp h₁
  have hGiven : ∀ key, given = some key → env.ltc.eccExport .pkPublic t.state.them.key = some key := by
    obtain ⟨b, t, -, hIte⟩ := returns_bind.mp hExport
    rintro key rfl
    rcases returns_ite.mp hIte with ⟨-, hPure⟩ | ⟨-, hPure⟩
    · exact (returns_pure.mp hPure).1.symm
    · cases (returns_pure.mp hPure).1
  obtain ⟨-, rfl⟩ := returns_exportKey.mp hExport
  obtain ⟨u, w₂, hConn, h₃⟩ := returns_bind.mp h₂
  obtain rfl := returns_modify.mp hConn
  have hLast : ∀ {r : Bool} {w₂ w' : World D K S Link},
      Returns (pure true : Step D K S Bool) w₂ r w' → w₂.state = t.state →
      w₂.data.conn.host = t.data.conn.host → w₂.data.conn.hostGivenKey = .ofOption given →
      w'.data.conn.host = t.data.conn.host ∧ w'.state = t.state ∧
        ∀ key, w'.data.conn.hostGivenKey = .live key →
          env.ltc.eccExport .pkPublic w'.state.them.key = some key := by
    intro r w₂ w' hPure hState hHost hKey
    obtain ⟨-, rfl⟩ := returns_pure.mp hPure
    refine ⟨hHost, hState, fun key hLive => ?_⟩
    rw [hState]
    refine hGiven key ?_
    rw [hKey] at hLive
    cases given with
    | none => cases hLive
    | some key' => cases hLive; rfl
  split at h₃
  · exact hLast h₃ rfl rfl rfl
  · exact (returns_throw.mp h₃).elim
  · rcases returns_ite.mp h₃ with ⟨-, h₄⟩ | ⟨-, h₄⟩
    · obtain ⟨u, w₃, -, h₅⟩ := returns_bind.mp h₄
      obtain ⟨u, w₄, -, h₆⟩ := returns_bind.mp h₅
      cases (returns_pure.mp h₆).1
    · exact hLast h₄ rfl rfl rfl

/-! ## Verification -/

theorem checkErr_true {t : Step D K S Bool} {code : ErrorCode} {message : String}
    (ht : Keeps Steady t) {w w' : World D K S Link}
    (h : Returns (checkErr env t code message) w true w') :
    ∃ v v', Steady w v ∧ Returns t v true v' ∧ Steady v' w' := by
  obtain ⟨b, w₁, hFirst, h₁⟩ := returns_bind.mp h
  cases b with
  | true =>
    obtain ⟨-, rfl⟩ := returns_pure.mp h₁
    exact ⟨w, _, Steady.same w, hFirst, Steady.same _⟩
  | false =>
    obtain ⟨u, w₂, hReport, h₂⟩ := returns_bind.mp h₁
    obtain ⟨b, w₃, hSecond, h₃⟩ := returns_bind.mp h₂
    have hBehind := steady_check b h₃
    obtain ⟨hTrue, -⟩ := returns_check.mp h₃
    obtain rfl := (Bool.and_eq_true_iff.mp hTrue.symm).1
    exact ⟨w₂, w₃, trans_of Steady (ht hFirst) (steady_proxyError _ _ hReport), hSecond, hBehind⟩

theorem checkErr_pure_true {b : Bool} {code : ErrorCode} {message : String} {w w' : World D K S Link}
    (h : Returns (checkErr env (pure b) code message) w true w') : b = true := by
  obtain ⟨v, v', -, hPure, -⟩ := checkErr_true (keeps_pure b) h
  exact (returns_pure.mp hPure).1.symm

/-- What the report leaves alone is not found otherwise behind it. -/
theorem checkErr_test_true {f : World D K S Link → Bool} {code : ErrorCode} {message : String}
    (hf : ∀ {v v'}, Steady v v' → f v' = f v) {w w' : World D K S Link}
    (h : Returns (checkErr env (test f) code message) w true w') : f w = true ∧ w' = w := by
  simp only [checkErr, test, returns_bind, returns_get, returns_pure, returns_ite, returns_check] at h
  obtain ⟨b, t, ⟨s, t', ⟨rfl, rfl⟩, rfl, rfl⟩, ⟨hTrue, -, rfl⟩ | ⟨hFalse, u, v, hReport, h₁⟩⟩ := h
  · exact ⟨hTrue, rfl⟩
  · obtain ⟨b', t', ⟨s, t'', ⟨rfl, rfl⟩, rfl, rfl⟩, hTrue, -⟩ := h₁
    have hSame := (Bool.and_eq_true_iff.mp hTrue.symm).1
    exact absurd ((hf (steady_proxyError _ _ hReport)).symm.trans hSame) hFalse

/-- A check that the call goes on behind. -/
theorem returns_checkErr_goOn {t : Step D K S Bool} {code : ErrorCode} {message : String}
    {m : Step D K S Bool} {w w' : World D K S Link}
    (h : Returns (checkErr env t code message >>= fun go => if (!go) = true then pure false else m)
      w true w') :
    ∃ w₁, Returns (checkErr env t code message) w true w₁ ∧ Returns m w₁ true w' := by
  obtain ⟨go, w₁, hCheck, h₁⟩ := returns_bind.mp h
  cases go with
  | false => cases (returns_pure.mp h₁).1
  | true => exact ⟨w₁, hCheck, h₁⟩

theorem steady_verifyResponse : Keeps Steady (verifyResponse env) := by
  refine keeps_bind keeps_get fun w => keeps_bind (steady_fingerprintKey _ _) fun hostFp => ?_
  refine keeps_bind (steady_fingerprintKey _ _) fun clientPubFp => ?_
  refine keeps_bind (steady_eccKeyBstr _ _) fun clientPub => ?_
  refine keeps_bind (steady_fingerprintKey _ _) fun clientPrvFp => ?_
  refine keeps_bind (steady_eccKeyBstr _ _) fun clientPrv => keeps_bind (keeps_lift _) fun given => ?_
  refine keeps_bind (steady_cons ?_) fun hostInfo => ?_
  · simp [Piece.makesNew]
  refine keeps_bind (steady_checkErr (keeps_pure _) _ _) fun go => keeps_ite (keeps_pure _) ?_
  refine keeps_bind (steady_cons ?_) fun myInfo => ?_
  · simp [Piece.makesNew]
  refine keeps_bind (steady_checkErr (keeps_pure _) _ _) fun go => keeps_ite (keeps_pure _) ?_
  exact steady_checkErr (steady_proxyListenerSend _ _) _ _

theorem steady_verifyChecks : Keeps Steady (verifyChecks env) := by
  refine keeps_bind (steady_checkErr (steady_test _) _ _) fun go => keeps_ite (keeps_pure _) ?_
  refine keeps_bind (steady_checkErr (steady_test _) _ _) fun go => keeps_ite (keeps_pure _) ?_
  refine keeps_bind (steady_checkErr (steady_test _) _ _) fun go => keeps_ite (keeps_pure _) ?_
  refine keeps_bind (steady_checkErr (steady_test _) _ _) fun go => keeps_ite (keeps_pure _) ?_
  refine keeps_bind (steady_checkErr steady_keysMatch _ _) fun go => keeps_ite (keeps_pure _) ?_
  exact steady_verifyResponse

theorem fading_proxyFinalVerify : Keeps Fading (proxyFinalVerify env) := by
  refine keeps_bind (fun _ _ _ h => (steady_verifyChecks h).fading) fun b => ?_
  refine keeps_ite (keeps_pure true) ?_
  exact keeps_bind fading_proxyDumpInvalidState fun _ => keeps_pure false

/-- A response is only built around a name and a key. -/
theorem verifyResponse_true {w w' : World D K S Link} (h : Returns (verifyResponse env) w true w') :
    w.state.them.name ≠ none ∧ ∃ key, w.data.conn.hostGivenKey = .live key := by
  obtain ⟨v, t, hGet, h₁⟩ := returns_bind.mp h
  obtain ⟨rfl, rfl⟩ := returns_get.mp hGet
  obtain ⟨hostFp, w₁, -, h₂⟩ := returns_bind.mp h₁
  obtain ⟨clientPubFp, w₂, -, h₃⟩ := returns_bind.mp h₂
  obtain ⟨clientPub, w₃, -, h₄⟩ := returns_bind.mp h₃
  obtain ⟨clientPrvFp, w₄, -, h₅⟩ := returns_bind.mp h₄
  obtain ⟨clientPrv, w₅, -, h₆⟩ := returns_bind.mp h₅
  obtain ⟨given, w₆, hLift, h₇⟩ := returns_bind.mp h₆
  obtain ⟨hRead, -⟩ := returns_lift.mp hLift
  obtain ⟨hostInfo, w₇, hCons, h₈⟩ := returns_bind.mp h₇
  obtain ⟨w₈, hCheck, -⟩ := returns_checkErr_goOn h₈
  obtain ⟨root, rfl⟩ := Option.isSome_iff_exists.mp (checkErr_pure_true hCheck)
  obtain ⟨heap, hNode, -⟩ := returns_cons.mp hCons
  have hArgs := nodeCons_given hNode
  constructor
  · intro hName
    rw [hName] at hArgs
    exact absurd (hArgs (.string none) (by simp)) (by simp [Piece.given])
  · cases hKey : t.data.conn.hostGivenKey with
    | null =>
      cases hRead.symm.trans (congrArg KeyRef.read hKey)
      exact absurd (hArgs (.blob none) (by simp)) (by simp [Piece.given])
    | live key => exact ⟨key, rfl⟩
    | freed => cases hRead.symm.trans (congrArg KeyRef.read hKey)

theorem keysMatch_true {w w' : World D K S Link} (h : Returns keysMatch w true w') {given : Bytes}
    (hGiven : w.data.conn.hostGivenKey = .live given) {key : KeyRef}
    (hKey : w.data.conn.host.key = key) : key = .null ∨ key = .live given := by
  obtain ⟨v, t, hGet, h₁⟩ := returns_bind.mp h
  obtain ⟨rfl, rfl⟩ := returns_get.mp hGet
  obtain ⟨same, t, hLift, h₂⟩ := returns_bind.mp h₁
  obtain ⟨hBiseq, rfl⟩ := returns_lift.mp hLift
  rw [hGiven, hKey] at hBiseq
  cases key with
  | null => exact .inl rfl
  | freed => cases hBiseq
  | live key =>
    cases hBiseq
    have hSame : biseq (some key) (some given) ≠ 0 := by
      simpa using (returns_pure.mp h₂).1.symm
    rcases biseq_ne_zero.mp hSame with hNone | hEq
    · cases hNone
    · cases hEq
      exact .inr rfl

/-- Behind a verification that succeeded stand the hub's name and the key it gave. -/
theorem proxyFinalVerify_true {w w' : World D K S Link}
    (h : Returns (proxyFinalVerify env) w true w') :
    (∃ name, w.data.conn.host.name = some name ∧ w.state.them.name = some name) ∧
      ∃ given, w.data.conn.hostGivenKey = .live given ∧
        (w.data.conn.host.key = .null ∨ w.data.conn.host.key = .live given) := by
  obtain ⟨b, t, hChecks, h₁⟩ := returns_bind.mp h
  cases b with
  | false =>
    obtain ⟨u, t, -, h₂⟩ := returns_bind.mp h₁
    cases (returns_pure.mp h₂).1
  | true =>
    obtain ⟨w₁, hHostName, h₂⟩ := returns_checkErr_goOn hChecks
    obtain ⟨hSome, rfl⟩ := checkErr_test_true (fun h => by rw [h.conn]) hHostName
    obtain ⟨w₂, hClientName, h₃⟩ := returns_checkErr_goOn h₂
    obtain ⟨-, rfl⟩ := checkErr_test_true (fun h => by rw [h.conn]) hClientName
    obtain ⟨w₃, hNames, h₄⟩ := returns_checkErr_goOn h₃
    obtain ⟨hSame, rfl⟩ := checkErr_test_true (fun h => by rw [h.conn, h.state]) hNames
    obtain ⟨w₄, hClients, h₅⟩ := returns_checkErr_goOn h₄
    obtain ⟨-, rfl⟩ := checkErr_test_true (fun h => by rw [h.conn, h.state]) hClients
    obtain ⟨w₅, hKeys, h₆⟩ := returns_checkErr_goOn h₅
    obtain ⟨v, v', hBefore, hMatch, hAfter⟩ := checkErr_true steady_keysMatch hKeys
    obtain ⟨hThem, given, hGiven⟩ := verifyResponse_true h₆
    have hRest : Steady v w₅ := trans_of Steady (steady_keysMatch hMatch) hAfter
    rw [(trans_of Steady hBefore hRest).state] at hThem
    rw [hRest.conn] at hGiven
    obtain ⟨name, hName⟩ := Option.isSome_iff_exists.mp hSome
    obtain ⟨theirs, hTheirs⟩ := Option.ne_none_iff_exists'.mp hThem
    rw [hName, hTheirs] at hSame
    rcases biseq_ne_zero.mp (of_decide_eq_true hSame) with hNone | hEq
    · cases hNone
    · refine ⟨⟨name, hName, hTheirs.trans hEq⟩, given, by rw [← hBefore.conn, hGiven], ?_⟩
      exact keysMatch_true hMatch hGiven (by rw [hBefore.conn])

/-! ## The call -/

variable (env)

/-- `CryptState_init`, whose result nobody looks at -/
def cryptStateInit : Step D K S Unit := do
  let w ← get
  assertThat (w.errno = 0) "bad errno before CryptState_init"
  set { w with errno := w.data.net.init }

/-- `CryptState_import_key` for `CRYPT_MY_KEY` -/
def importMyKey (src : Bytes) : Step D K S Bool := do
  let key := env.ltc.eccImport src
  modifyState fun st => { st with me := { st.me with key := key.getD st.me.key } }
  check key.isSome

/-- `CryptState_create_key` -/
def createKey : Step D K S Bool := do
  let w ← get
  match env.ltc.eccMakeKey w.random with
  | none => check false
  | some (key, random) =>
    set { w with random, state := { w.state with me := { w.state.me with key } } }
    check true

/-- `CryptState_rand_sess` -/
def randSess : Step D K S Unit := do
  let raw ← orAssert "failed to gather randomness" (← rand keyLength)
  modifyState fun st => { st with me := { st.me with session := some raw } }

def emptyPeer (name : Option Bytes) : CryptPeer K S := ⟨name, ⟨0, 0⟩, env.ltc.noKey, none, env.ltc.noSkey⟩

/-- `CryptState_create`: the private key -/
def setupKey : Option Bytes → Step D K S Bool
  | some prvkey => importMyKey env prvkey
  | none => createKey env

/-- `CryptState_create`: without a key there is no session, but still a state. -/
def cryptStateCreate (name prvkey : Option Bytes) : Step D K S Unit := do
  let name ← orAssert "name cannot be NULL" name
  modifyState fun _ => ⟨emptyPeer env (some name), emptyPeer env none, env.ltc.noSkey⟩
  let rc ← setupKey env prvkey
  if !(← check rc) then return ()
  randSess

/-- `tcp_client` -/
def tcpClient (hname sname : Option Bytes) : Step D K S Int := do
  let _ ← orAssert "memory alloc failure" hname
  let _ ← orAssert "memory alloc failure" sname
  modify World.clear
  let w ← get
  return w.data.net.tcp

/-- `Proxy_connect` up to the socket -/
def openHub : Step D K S Unit := do
  cryptStateInit
  let w ← get
  cryptStateCreate env w.data.conn.client.name w.data.conn.client.key
  let fd ← tcpClient w.data.conn.host.host w.data.conn.host.port
  modifyConn fun conn => { conn with host := { conn.host with fd } }

/-- `Proxy_connect`: the hub's first message and the answer to it. All exits return 0. -/
def greetHub : Step D K S Progress := do
  if !(← checkErr env (test fun w => 0 ≤ w.data.conn.host.fd) .net "Failed to connect to Hub.") then
    return .exit false
  let w ← get
  let fd := w.data.conn.host.fd
  let (rmsg, rhdr) ← readnodes env fd
  if !(← checkErr env (pure (rmsg.isNone && rhdr.isSome)) .peerEstablish
      "Incorrectly formatted initial message from Hub.") then
    return .exit (← leave false none rmsg rhdr)
  let recvhdr ← orAssert "recvhdr cannot be NULL" rhdr
  let (imsg, header) ← initiatorStart env recvhdr (confirmKey env)
  destroy rhdr
  if !(← checkErr env (pure imsg.isSome) .peerEstablish
      "Failed to construct response to Hub's first message.") then
    return .exit (← leave false imsg rmsg none)
  let rc ← writeHeaderNode env fd header imsg
  destroy imsg
  if !(← checkErr env (pure (0 < rc)) .peerEstablish
      "Failed sending response to Hub's first message.") then
    return .exit (← leave (0 < rc) none rmsg none)
  return .goOn (0 < rc)

/-- `Proxy_connect`: the hub's answer, under the `rc` of the write before it -/
def hearHub (rc : Bool) : Step D K S Progress := do
  let w ← get
  let (rmsg, rhdr) ← readnodes env w.data.conn.host.fd
  if !(← checkErr env (pure (rmsg.isSome && rhdr.isSome)) .peerEstablish
      "Invalid response from hub.") then
    return .exit (← leave rc none rmsg rhdr)
  let header ← bstr env rhdr
  destroy rhdr
  let msg ← orAssert "msg cannot be NULL" rmsg
  let rc ← initiatorProcessResponse env header msg
  if !(← checkErr env (pure rc) .peerEstablish "Failed to process receiver 2nd message.") then
    return .exit (← leave rc none rmsg none)
  destroy rmsg
  return .goOn rc

/-- `Proxy_connect`: the last message and the verification, whose failure does not touch `rc` -/
def confirmHub (rc : Bool) : Step D K S Bool := do
  let (imsg, header) ← initiatorSendFinal env
  if !(← checkErr env (pure imsg.isSome) .peerEstablish "Failed to generate final message.") then
    leave rc imsg none none
  else
    let w ← get
    let rc ← writeHeaderNode env w.data.conn.host.fd (some header) imsg
    if !(← checkErr env (pure (0 < rc)) .peerEstablish "Failed to write final message to hub.") then
      leave (0 < rc) imsg none none
    else
      let _ ← checkErr env (proxyFinalVerify env) .peerVerify "Final verify of Hub info failed."
      leave (0 < rc) imsg none none

def proxyConnect : Step D K S Bool := do
  openHub env
  match ← greetHub env with
  | .exit rc => return rc
  | .goOn rc =>
    match ← hearHub env rc with
    | .exit rc => return rc
    | .goOn rc => confirmHub env rc

/-! ## Soundness -/

/-- The hub sent a header only and was answered. -/
inductive Greeting (w w₁ : World D K S Link) : Prop
  | intro {rhdr imsg : Nat} {header : Option Bytes} {rc : Int} {read started : World D K S Link}
      (hRead : Returns (readnodes env w.data.conn.host.fd) w (none, some rhdr) read)
      (hStart : Returns (initiatorStart env rhdr (confirmKey env)) read (some imsg, header) started)
      (hWrite : Returns (writeHeaderNode env w.data.conn.host.fd header (some imsg)) started rc w₁)
      (hRc : 0 < rc)

/-- The hub answered with a header and a body, and the body was taken. -/
inductive Answer (w₁ w₃ : World D K S Link) : Prop
  | intro {rmsg rhdr : Nat} {hbuf : Bytes} {w₂ : World D K S Link}
      (hRead : Returns (readnodes env w₁.data.conn.host.fd) w₁ (some rmsg, some rhdr) w₂)
      (hHeader : nodeBstr env.lib w₂.heap (some rhdr) true = .ok hbuf)
      (hProcess : Returns (initiatorProcessResponse env hbuf rmsg) w₂ true w₃)

/-- The last message was built and written. -/
structure Farewell (imsg : Nat) (header : Bytes) (rc : Int) (w₃ w₄ w₅ : World D K S Link) : Prop where
  build : Returns (initiatorSendFinal env) w₃ (some imsg, header) w₄
  write : Returns (writeHeaderNode env w₄.data.conn.host.fd (some header) (some imsg)) w₄ rc w₅
  rc : 0 < rc

/-- The report of a verification that failed -/
def reportVerify : Step D K S Unit :=
  proxyError env .peerVerify (some (ascii "Final verify of Hub info failed."))

/-- The verification starts in `v`: where the last message was written, or behind the report of
one that failed. -/
def VerifyFrom (w₅ v : World D K S Link) : Prop :=
  v = w₅ ∨ ∃ v₁, Returns (proxyFinalVerify env) w₅ false v₁ ∧ Returns (reportVerify env) v₁ () v

/-- Everything that makes a connection happened in the call from `w`. -/
inductive Connected (w : World D K S Link) : Prop
  | intro {imsg : Nat} {header : Bytes} {rc : Int} {w₀ w₁ w₃ w₄ w₅ v v' : World D K S Link}
      (hOpen : Returns (openHub env) w () w₀)
      (hGreeting : Greeting env w₀ w₁)
      (hAnswer : Answer env w₁ w₃)
      (hFarewell : Farewell env imsg header rc w₃ w₄ w₅)
      (hFrom : VerifyFrom env w₅ v)
      (hVerify : Returns (proxyFinalVerify env) v true v')
      (hName : ∃ name, w.data.conn.host.name = some name ∧ v.state.them.name = some name)
      (hKey : ∀ key, w.data.conn.host.key = .live key →
        env.ltc.eccExport .pkPublic v.state.them.key = some key)

def ConnectSound (w : World D K S Link) : Prop :=
  ∀ w', Returns (proxyConnect env) w true w' → Connected env w

/-- The exit behind a step that failed while `rc` still holds the success of a step before it -/
def giveUp (message : String) (rmsg rhdr : Option Nat) : Step D K S Bool := do
  proxyError env .peerEstablish (some (ascii message))
  let _ ← check false
  leave true none rmsg rhdr

/-- The procedure ends the process. -/
def Stops {α : Type} (m : Step D K S α) (w : World D K S Link) : Prop := ∀ a w', ¬ Returns m w a w'

/-- The hub answers with a header and a body, and the last message can be built, unless the report
that they are missing stops the process; and a verification that fails does not fail again. -/
structure ConnectServed (w : World D K S Link) : Prop where
  hears : ∀ {w₀ w₁ w₂ rmsg rhdr}, Returns (openHub env) w () w₀ →
    Returns (greetHub env) w₀ (.goOn true) w₁ →
    Returns (readnodes env w₁.data.conn.host.fd) w₁ (rmsg, rhdr) w₂ →
    (rmsg.isSome && rhdr.isSome) = false →
    Stops (giveUp env "Invalid response from hub." rmsg rhdr) w₂
  builds : ∀ {w₀ w₁ w₃ w₄ header}, Returns (openHub env) w () w₀ →
    Returns (greetHub env) w₀ (.goOn true) w₁ → Returns (hearHub env true) w₁ (.goOn true) w₃ →
    Returns (initiatorSendFinal env) w₃ (none, header) w₄ →
    Stops (giveUp env "Failed to generate final message." none none) w₄
  verifies : ∀ {w₀ w₁ w₃ w₄ w₅ v₁ v₂ v₃ imsg header rc}, Returns (openHub env) w () w₀ →
    Returns (greetHub env) w₀ (.goOn true) w₁ → Returns (hearHub env true) w₁ (.goOn true) w₃ →
    Farewell env imsg header rc w₃ w₄ w₅ → Returns (proxyFinalVerify env) w₅ false v₁ →
    Returns (reportVerify env) v₁ () v₂ → Returns (proxyFinalVerify env) v₂ false v₃ →
    ∀ freed, nodeDestroy v₃.heap (some imsg) ≠ .ok freed

variable {env} {w w' : World D K S Link}

theorem returns_checkErr_pure {b c : Bool} {code : ErrorCode} {message : String} :
    Returns (checkErr env (pure b) code message) w c w' ↔ c = b ∧ ((b = true ∧ w' = w) ∨
      (b = false ∧ ∃ v, Returns (proxyError env code (some (ascii message))) w () v ∧ w' = v.clear)) := by
  simp only [checkErr, returns_bind, returns_pure, returns_ite, returns_check]
  constructor
  · rintro ⟨b', t, ⟨rfl, rfl⟩, ⟨rfl, rfl, rfl⟩ | ⟨hb, u, v, hError, b'', t', ⟨rfl, rfl⟩, rfl, rfl⟩⟩
    · exact ⟨rfl, .inl ⟨rfl, rfl⟩⟩
    · have hb := Bool.eq_false_iff.mpr hb
      subst hb
      exact ⟨rfl, .inr ⟨rfl, _, hError, rfl⟩⟩
  · rintro ⟨rfl, ⟨rfl, rfl⟩ | ⟨rfl, v, hError, rfl⟩⟩
    · exact ⟨true, _, ⟨rfl, rfl⟩, .inl ⟨rfl, rfl, rfl⟩⟩
    · exact ⟨false, _, ⟨rfl, rfl⟩, .inr ⟨nofun, (), v, hError, false, v, ⟨rfl, rfl⟩, rfl, rfl⟩⟩

/-- A check of a value the call has: it goes on as it is, or reports. -/
theorem returns_checkErrElse {α : Type} {b : Bool} {code : ErrorCode} {message : String}
    {m n : Step D K S α} {a : α} :
    Returns (checkErr env (pure b) code message >>= fun go => if (!go) = true then m else n) w a w' ↔
      (b = false ∧ ∃ v, Returns (proxyError env code (some (ascii message))) w () v ∧
        Returns m v.clear a w') ∨ (b = true ∧ Returns n w a w') := by
  simp only [returns_bind, returns_checkErr_pure, returns_ite]
  constructor
  · rintro ⟨c, t, ⟨rfl, ⟨rfl, rfl⟩ | ⟨rfl, v, hError, rfl⟩⟩, ⟨hc, h⟩ | ⟨hc, h⟩⟩
    · cases hc
    · exact .inr ⟨rfl, h⟩
    · exact .inl ⟨rfl, v, hError, h⟩
    · exact absurd rfl hc
  · rintro (⟨rfl, v, hError, h⟩ | ⟨rfl, h⟩)
    · exact ⟨false, _, ⟨rfl, .inr ⟨rfl, v, hError, rfl⟩⟩, .inl ⟨rfl, h⟩⟩
    · exact ⟨true, _, ⟨rfl, .inl ⟨rfl, rfl⟩⟩, .inr ⟨nofun, h⟩⟩

theorem returns_giveUp {message : String} {rmsg rhdr : Option Nat} {b : Bool} :
    Returns (giveUp env message rmsg rhdr) w b w' ↔
      ∃ v, Returns (proxyError env .peerEstablish (some (ascii message))) w () v ∧
        Returns (leave true none rmsg rhdr) v.clear b w' := by
  simp only [giveUp, returns_bind, returns_check]
  constructor
  · rintro ⟨u, v, hError, c, t, ⟨-, rfl⟩, h⟩
    exact ⟨v, hError, h⟩
  · rintro ⟨v, hError, h⟩
    exact ⟨(), v, hError, _, _, ⟨rfl, rfl⟩, h⟩

/-- The exits before the first write that worked return 0. -/
theorem greetHub_cases {p : Progress} {w₁ : World D K S Link} (h : Returns (greetHub env) w p w₁) :
    p = .exit false ∨ p = .goOn true ∧ Greeting env w w₁ := by
  obtain ⟨go, t, hFd, h₁⟩ := returns_bind.mp h
  cases go with
  | false => exact .inl (returns_pure.mp h₁).1
  | true =>
    obtain ⟨-, rfl⟩ := checkErr_test_true (fun h => by rw [h.conn]) hFd
    obtain ⟨s, t', hGet, h₂⟩ := returns_bind.mp h₁
    obtain ⟨rfl, rfl⟩ := returns_get.mp hGet
    obtain ⟨⟨rmsg, rhdr⟩, read, hRead, h₃⟩ := returns_bind.mp h₂
    rcases returns_checkErrElse.mp h₃ with ⟨-, v, -, hExit⟩ | ⟨hFirst, h₄⟩
    · exact .inl (exit_leave hExit)
    simp only [Bool.and_eq_true, Option.isNone_iff_eq_none] at hFirst
    obtain ⟨rfl, -⟩ := hFirst
    obtain ⟨recvhdr, t, hHdr, h₅⟩ := returns_bind.mp h₄
    obtain ⟨rfl, rfl⟩ := returns_orAssert.mp hHdr
    obtain ⟨⟨imsg, header⟩, started, hStart, h₆⟩ := returns_bind.mp h₅
    obtain ⟨u, t, hDestroy, h₇⟩ := returns_bind.mp h₆
    obtain ⟨-, rfl⟩ := returns_destroy.mp hDestroy
    rcases returns_checkErrElse.mp h₇ with ⟨-, v, -, hExit⟩ | ⟨hSome, h₈⟩
    · exact .inl (exit_leave hExit)
    obtain ⟨imsg, rfl⟩ := Option.isSome_iff_exists.mp hSome
    obtain ⟨rc, sent, hWrite, h₉⟩ := returns_bind.mp h₈
    obtain ⟨u, t, hDestroy, h₁₀⟩ := returns_bind.mp h₉
    obtain ⟨-, rfl⟩ := returns_destroy.mp hDestroy
    rcases returns_checkErrElse.mp h₁₀ with ⟨hRc, v, -, hExit⟩ | ⟨hRc, h₁₁⟩
    · rw [hRc] at hExit
      exact .inl (exit_leave hExit)
    obtain ⟨rfl, rfl⟩ := returns_pure.mp h₁₁
    rw [hRc]
    exact .inr ⟨rfl, hRead, hStart, hWrite, of_decide_eq_true hRc⟩

/-- The answer is taken, or the call ends with what `rc` was before the answer was read. -/
theorem hearHub_cases {p : Progress} {w₁ w₃ : World D K S Link}
    (h : Returns (hearHub env true) w₁ p w₃) :
    p = .exit false ∨
      (p = .exit true ∧ ∃ rmsg rhdr w₂,
        Returns (readnodes env w₁.data.conn.host.fd) w₁ (rmsg, rhdr) w₂ ∧
        (rmsg.isSome && rhdr.isSome) = false ∧
        Returns (giveUp env "Invalid response from hub." rmsg rhdr) w₂ true w₃) ∨
      p = .goOn true ∧ Answer env w₁ w₃ := by
  obtain ⟨s, t, hGet, h₁⟩ := returns_bind.mp h
  obtain ⟨rfl, rfl⟩ := returns_get.mp hGet
  obtain ⟨⟨rmsg, rhdr⟩, w₂, hRead, h₂⟩ := returns_bind.mp h₁
  rcases returns_checkErrElse.mp h₂ with ⟨hMissing, v, hError, hExit⟩ | ⟨hBoth, h₃⟩
  · obtain ⟨b, t', hLeave, hPure⟩ := returns_bind.mp hExit
    obtain ⟨rfl, rfl⟩ := returns_pure.mp hPure
    obtain ⟨-, rfl, -⟩ := returns_leave.mp hLeave
    exact .inr (.inl ⟨rfl, rmsg, rhdr, w₂, hRead, hMissing, returns_giveUp.mpr ⟨v, hError, hLeave⟩⟩)
  obtain ⟨hMsg, hHdr⟩ := Bool.and_eq_true_iff.mp hBoth
  obtain ⟨rmsg, rfl⟩ := Option.isSome_iff_exists.mp hMsg
  obtain ⟨rhdr, rfl⟩ := Option.isSome_iff_exists.mp hHdr
  obtain ⟨hbuf, t', hBstr, h₄⟩ := returns_bind.mp h₃
  obtain ⟨hHeader, rfl⟩ := returns_bstr.mp hBstr
  obtain ⟨u, t', hDestroy, h₅⟩ := returns_bind.mp h₄
  obtain ⟨-, rfl⟩ := returns_destroy.mp hDestroy
  obtain ⟨msg, t', hAssert, h₆⟩ := returns_bind.mp h₅
  obtain ⟨hMsg, rfl⟩ := returns_orAssert.mp hAssert
  cases hMsg
  obtain ⟨rc, processed, hProcess, h₇⟩ := returns_bind.mp h₆
  rcases returns_checkErrElse.mp h₇ with ⟨rfl, v, -, hExit⟩ | ⟨rfl, h₈⟩
  · exact .inl (exit_leave hExit)
  obtain ⟨-, rfl, rfl⟩ := returns_destroyReturn.mp h₈
  exact .inr (.inr ⟨rfl, hRead, hHeader, hProcess⟩)

/-- What ends the call with 1: a message that could not be built, a verification that succeeded
when it was asked for, or one that failed twice. -/
theorem confirmHub_true {w₃ : World D K S Link} (h : Returns (confirmHub env true) w₃ true w') :
    (∃ header w₄, Returns (initiatorSendFinal env) w₃ (none, header) w₄ ∧
      Returns (giveUp env "Failed to generate final message." none none) w₄ true w') ∨
    ∃ imsg header rc w₄ w₅, Farewell env imsg header rc w₃ w₄ w₅ ∧
      ((∃ v v', VerifyFrom env w₅ v ∧ Returns (proxyFinalVerify env) v true v') ∨
        ∃ v₁ v₂ v₃, Returns (proxyFinalVerify env) w₅ false v₁ ∧ Returns (reportVerify env) v₁ () v₂ ∧
          Returns (proxyFinalVerify env) v₂ false v₃ ∧
          ∃ freed, nodeDestroy v₃.heap (some imsg) = .ok freed) := by
  obtain ⟨⟨imsg, header⟩, w₄, hBuild, h₁⟩ := returns_bind.mp h
  rcases returns_checkErrElse.mp h₁ with ⟨hNone, v, hError, hExit⟩ | ⟨hSome, h₂⟩
  · obtain rfl := Option.isSome_eq_false_iff.mp hNone |> Option.isNone_iff_eq_none.mp
    exact .inl ⟨header, w₄, hBuild, returns_giveUp.mpr ⟨v, hError, hExit⟩⟩
  obtain ⟨imsg, rfl⟩ := Option.isSome_iff_exists.mp hSome
  obtain ⟨s, t, hGet, h₃⟩ := returns_bind.mp h₂
  obtain ⟨rfl, rfl⟩ := returns_get.mp hGet
  obtain ⟨rc, w₅, hWrite, h₄⟩ := returns_bind.mp h₃
  rcases returns_checkErrElse.mp h₄ with ⟨hRc, v, -, hExit⟩ | ⟨hRc, h₅⟩
  · rw [hRc] at hExit
    cases (returns_leave.mp hExit).2.1
  refine .inr ⟨imsg, header, rc, _, w₅, ⟨hBuild, hWrite, of_decide_eq_true hRc⟩, ?_⟩
  obtain ⟨go, t, hCheck, h₆⟩ := returns_bind.mp h₅
  obtain ⟨⟨hFreed, -⟩, -⟩ := returns_leave.mp h₆
  obtain ⟨b, v₁, hFirst, h₇⟩ := returns_bind.mp hCheck
  cases b with
  | true => exact .inl ⟨w₅, v₁, .inl rfl, hFirst⟩
  | false =>
    obtain ⟨u, v₂, hReport, h₈⟩ := returns_bind.mp h₇
    obtain ⟨b, v₃, hSecond, h₉⟩ := returns_bind.mp h₈
    obtain ⟨-, rfl⟩ := returns_check.mp h₉
    cases b with
    | true => exact .inl ⟨v₂, v₃, .inr ⟨v₁, hFirst, hReport⟩, hSecond⟩
    | false => exact .inr ⟨v₁, v₂, v₃, hFirst, hReport, hSecond, hFreed⟩

/-- The call returns 1 when the answer is missing, or through the last part. -/
theorem proxyConnect_true :
    Returns (proxyConnect env) w true w' ↔
      ∃ w₀ w₁, Returns (openHub env) w () w₀ ∧ Returns (greetHub env) w₀ (.goOn true) w₁ ∧
        (Returns (hearHub env true) w₁ (.exit true) w' ∨
          ∃ w₃, Returns (hearHub env true) w₁ (.goOn true) w₃ ∧
            Returns (confirmHub env true) w₃ true w') := by
  constructor
  · intro h
    obtain ⟨u, w₀, hOpen, h₁⟩ := returns_bind.mp h
    obtain ⟨p, w₁, hGreet, h₂⟩ := returns_bind.mp h₁
    rcases greetHub_cases hGreet with rfl | ⟨rfl, -⟩
    · cases (returns_pure.mp h₂).1
    obtain ⟨q, w₃, hHear, h₃⟩ := returns_bind.mp h₂
    refine ⟨w₀, w₁, hOpen, hGreet, ?_⟩
    rcases hearHub_cases hHear with rfl | ⟨rfl, -⟩ | ⟨rfl, -⟩
    · cases (returns_pure.mp h₃).1
    · obtain ⟨-, rfl⟩ := returns_pure.mp h₃
      exact .inl hHear
    · exact .inr ⟨w₃, hHear, h₃⟩
  · rintro ⟨w₀, w₁, hOpen, hGreet, hHear | ⟨w₃, hHear, hConfirm⟩⟩
    · refine returns_bind.mpr ⟨(), w₀, hOpen, returns_bind.mpr ⟨_, w₁, hGreet, ?_⟩⟩
      exact returns_bind.mpr ⟨_, w', hHear, returns_pure.mpr ⟨rfl, rfl⟩⟩
    · refine returns_bind.mpr ⟨(), w₀, hOpen, returns_bind.mpr ⟨_, w₁, hGreet, ?_⟩⟩
      exact returns_bind.mpr ⟨_, w₃, hHear, hConfirm⟩

/-! ### The hub's name and key -/

/-- The connection and the hub's key stay as they are. -/
structure SameHub (w w' : World D K S Link) : Prop where
  key : w'.state.them.key = w.state.them.key
  conn : w'.data.conn = w.data.conn

instance : IsPreorder (World D K S Link) SameHub where
  refl _ := ⟨rfl, rfl⟩
  trans _ _ _ h h' := ⟨h'.key.trans h.key, h'.conn.trans h.conn⟩

theorem Aside.sameHub (h : Aside w w') : SameHub w w' := ⟨h.key, by rw [h.data]⟩

theorem Steady.sameHub (h : Steady w w') : SameHub w w' := ⟨by rw [h.state], h.conn⟩

theorem sameHub_check (c : Bool) : Keeps SameHub (check c : Step D K S Bool) :=
  fun _ _ _ h => (steady_check c h).sameHub

theorem sameHub_readn (fd : Int) (len : Nat) : Keeps SameHub (readn fd len : Step D K S (Option Bytes)) := by
  refine keeps_bind (fun _ _ _ h => (steady_assertThat _ _ h).sameHub) fun _ => ?_
  refine keeps_bind (fun _ _ _ h => (steady_assertThat _ _ h).sameHub) fun _ => ?_
  refine keeps_bind (keeps_getThen fun w r w' h => ?_) fun r => ?_
  · simp only [returns_bind, returns_set, returns_pure] at h
    obtain ⟨-, t, rfl, -, rfl⟩ := h
    exact ⟨rfl, rfl⟩
  refine keeps_bind (keeps_modify fun _ => ⟨rfl, rfl⟩) fun _ => keeps_ite ?_ (keeps_pure none)
  exact keeps_bind (fun _ _ _ h => (steady_assertThat _ _ h).sameHub) fun _ => keeps_pure _

theorem sameHub_readframe (fd : Int) : Keeps SameHub (readframe fd : Step D K S (Option Bytes)) := by
  refine keeps_bind (sameHub_readn fd 2) fun head => ?_
  cases head with
  | none => exact keeps_bind (sameHub_check false) fun _ => keeps_pure none
  | some head =>
    refine keeps_bind (sameHub_check true) fun go => keeps_ite (keeps_pure none) ?_
    refine keeps_bind (sameHub_readn fd _) fun data => ?_
    cases data with
    | none => exact keeps_bind (sameHub_check false) fun _ => keeps_pure none
    | some data =>
      exact keeps_bind (sameHub_check true) fun go => keeps_ite (keeps_pure none) (keeps_pure _)

theorem sameHub_readnodes (fd : Int) : Keeps SameHub (readnodes env fd) := by
  refine keeps_bind (sameHub_readframe fd) fun data => ?_
  cases data with
  | none => exact keeps_bind (sameHub_check false) fun _ => keeps_pure _
  | some data =>
    refine keeps_bind (sameHub_check true) fun go => keeps_ite (keeps_pure _) ?_
    refine keeps_bind (fun _ _ _ h => (aside_parseSeq data 0 h).sameHub) fun r => ?_
    refine keeps_bind (sameHub_check _) fun go => keeps_ite (keeps_pure _) ?_
    exact keeps_bind (fun _ _ _ h => (aside_parseSeq data _ h).sameHub) fun _ => keeps_pure _

/-- The key kept for the hub is the one that its crypto key exports to. -/
def Given (env : Env D K S) (w : World D K S Link) : Prop :=
  ∀ key, w.data.conn.hostGivenKey = .live key → env.ltc.eccExport .pkPublic w.state.them.key = some key

theorem SameHub.given (h : SameHub w w') (hGiven : Given env w) : Given env w' := by
  intro key hKey
  rw [h.conn] at hKey
  rw [h.key]
  exact hGiven key hKey

theorem Greeting.given {w₁ : World D K S Link} (h : Greeting env w w₁) :
    Given env w₁ ∧ w₁.data.conn.host = w.data.conn.host := by
  obtain ⟨hRead, hStart, hWrite, -⟩ := h
  obtain ⟨v, v', hData, hConfirm, hAside⟩ := initiatorStart_confirmed hStart
  obtain ⟨hHost, -, hGiven⟩ := proxyConfirmKey_true hConfirm
  have hBehind := trans_of SameHub hAside.sameHub (steady_writeHeaderNode _ _ _ hWrite).sameHub
  refine ⟨hBehind.given hGiven, ?_⟩
  rw [hBehind.conn, hHost, hData, (sameHub_readnodes _ hRead).conn]

theorem Answer.sameHub {w₁ w₃ : World D K S Link} (h : Answer env w₁ w₃) : SameHub w₁ w₃ := by
  obtain ⟨hRead, -, hProcess⟩ := h
  exact trans_of SameHub (sameHub_readnodes _ hRead) (aside_initiatorProcessResponse _ _ hProcess).sameHub

theorem Farewell.sameHub {imsg : Nat} {header : Bytes} {rc : Int} {w₃ w₄ w₅ : World D K S Link}
    (h : Farewell env imsg header rc w₃ w₄ w₅) : SameHub w₃ w₅ :=
  trans_of SameHub (aside_initiatorSendFinal h.build).sameHub
    (steady_writeHeaderNode _ _ _ h.write).sameHub

theorem VerifyFrom.fading {w₅ v : World D K S Link} (h : VerifyFrom env w₅ v) : Fading w₅ v := by
  rcases h with rfl | ⟨v₁, hFirst, hReport⟩
  · exact refl_of Fading v
  · exact trans_of Fading (fading_proxyFinalVerify hFirst) (steady_proxyError _ _ hReport).fading

/-- The connection stays as it is. -/
def SameConn (w w' : World D K S Link) : Prop := w'.data.conn = w.data.conn

instance : IsPreorder (World D K S Link) SameConn where
  refl _ := rfl
  trans _ _ _ h h' := Eq.trans h' h

theorem sameConn_modifyState (f : CryptState K S → CryptState K S) :
    Keeps SameConn (modifyState f : Step D K S Unit) := keeps_modify fun _ => rfl

theorem sameConn_check (c : Bool) : Keeps SameConn (check c : Step D K S Bool) :=
  fun _ _ _ h => (steady_check c h).conn

theorem sameConn_orAssert {α : Type} (what : String) (o : Option α) :
    Keeps SameConn (orAssert what o : Step D K S α) := fun _ _ _ h => (steady_orAssert what o h).conn

theorem sameConn_rand (length : Nat) : Keeps SameConn (rand length : Step D K S (Option Bytes)) := by
  refine keeps_getThen fun w r w' h => ?_
  cases hRandom : w.random with
  | nil =>
    rw [hRandom] at h
    obtain ⟨-, rfl⟩ := returns_pure.mp h
    rfl
  | cons raw rest =>
    rw [hRandom] at h
    simp only [returns_bind, returns_set, returns_pure] at h
    obtain ⟨-, t, rfl, -, rfl⟩ := h
    rfl

theorem sameConn_createKey : Keeps SameConn (createKey env) := by
  refine keeps_getThen fun w r w' h => ?_
  cases hMade : env.ltc.eccMakeKey w.random with
  | none =>
    rw [hMade] at h
    exact sameConn_check false h
  | some made =>
    rw [hMade] at h
    obtain ⟨u, t, hSet, h₁⟩ := returns_bind.mp h
    obtain rfl := returns_set.mp hSet
    have hConn := sameConn_check true h₁
    exact hConn

theorem sameConn_cryptStateCreate (name prvkey : Option Bytes) :
    Keeps SameConn (cryptStateCreate env name prvkey) := by
  refine keeps_bind (sameConn_orAssert _ name) fun name => ?_
  refine keeps_bind (sameConn_modifyState _) fun _ => keeps_bind ?_ fun rc => ?_
  · cases prvkey with
    | some key => exact keeps_bind (sameConn_modifyState _) fun _ => sameConn_check _
    | none => exact sameConn_createKey
  · refine keeps_bind (sameConn_check rc) fun go => keeps_ite (keeps_pure ()) ?_
    refine keeps_bind (sameConn_rand _) fun raw => keeps_bind (sameConn_orAssert _ raw) fun raw => ?_
    exact sameConn_modifyState _

/-- Opening the socket changes the connection in its descriptor only. -/
theorem openHub_host {w₀ : World D K S Link} (h : Returns (openHub env) w () w₀) :
    w₀.data.conn.host.name = w.data.conn.host.name ∧ w₀.data.conn.host.key = w.data.conn.host.key := by
  obtain ⟨u, w₁, hInit, h₁⟩ := returns_bind.mp h
  have hConn₁ : w₁.data.conn = w.data.conn := by
    obtain ⟨s, t, hGet, h₂⟩ := returns_bind.mp hInit
    obtain ⟨rfl, rfl⟩ := returns_get.mp hGet
    obtain ⟨u, t', hAssert, h₃⟩ := returns_bind.mp h₂
    obtain rfl := returns_set.mp h₃
    rfl
  obtain ⟨s, t, hGet, h₂⟩ := returns_bind.mp h₁
  obtain ⟨rfl, rfl⟩ := returns_get.mp hGet
  obtain ⟨u, w₂, hCreate, h₃⟩ := returns_bind.mp h₂
  have hConn₂ : w₂.data.conn = _ := sameConn_cryptStateCreate _ _ hCreate
  obtain ⟨fd, w₃, hTcp, h₄⟩ := returns_bind.mp h₃
  have hConn₃ : w₃.data.conn = w₂.data.conn := by
    refine (keeps_bind (sameConn_orAssert _ _) fun _ => keeps_bind (sameConn_orAssert _ _) fun _ => ?_ :
      Keeps SameConn (tcpClient _ _)) hTcp
    exact keeps_bind (keeps_modify fun _ => rfl) fun _ => keeps_bind keeps_get fun _ => keeps_pure _
  obtain rfl := returns_modify.mp h₄
  simp [hConn₃, hConn₂, hConn₁]

/-- The verification looked at the hub's name and key as they were configured. -/
theorem verified {imsg : Nat} {header : Bytes} {rc : Int} {w₀ w₁ w₃ w₄ w₅ v v' : World D K S Link}
    (hOpen : Returns (openHub env) w () w₀) (hGreeting : Greeting env w₀ w₁) (hAnswer : Answer env w₁ w₃)
    (hFarewell : Farewell env imsg header rc w₃ w₄ w₅) (hFrom : VerifyFrom env w₅ v)
    (hVerify : Returns (proxyFinalVerify env) v true v') : Connected env w := by
  obtain ⟨hNameOpen, hKeyOpen⟩ := openHub_host hOpen
  obtain ⟨hGiven₁, hHost₁⟩ := hGreeting.given
  have hSame := trans_of SameHub hAnswer.sameHub hFarewell.sameHub
  have hFading := hFrom.fading
  have hHost₅ : w₅.data.conn.host = w₀.data.conn.host := by rw [hSame.conn, hHost₁]
  obtain ⟨⟨name, hName, hThem⟩, given, hLive, hKeys⟩ := proxyFinalVerify_true hVerify
  refine ⟨hOpen, hGreeting, hAnswer, hFarewell, hFrom, hVerify, ⟨name, ?_, hThem⟩, fun key hKey => ?_⟩
  · rw [← hNameOpen, ← hHost₅, ← hFading.name, hName]
  · rw [← hKeyOpen, ← hHost₅] at hKey
    have hEq : given = key := by
      rcases hFading.key with hStill | hFreed
      · rw [hStill, hKey] at hKeys
        rcases hKeys with h | h
        · cases h
        · cases h
          rfl
      · rw [hFreed] at hKeys
        rcases hKeys with h | h <;> cases h
    have hKept : w₅.data.conn.hostGivenKey = .live given := by
      rcases hFading.given with hStill | hFreed
      · rw [← hStill, hLive]
      · rw [hFreed] at hLive
        cases hLive
    rw [hFading.state, ← hEq]
    exact hSame.given hGiven₁ given hKept

theorem ConnectServed.sound (hServed : ConnectServed env w) : ConnectSound env w := by
  intro w' hReturns
  obtain ⟨w₀, w₁, hOpen, hGreet, hHear | ⟨w₃, hHear, hConfirm⟩⟩ := proxyConnect_true.mp hReturns
  · rcases hearHub_cases hHear with h | ⟨-, rmsg, rhdr, w₂, hRead, hMissing, hGiveUp⟩ | ⟨h, -⟩
    · cases h
    · exact absurd hGiveUp (hServed.hears hOpen hGreet hRead hMissing _ _)
    · cases h
  rcases hearHub_cases hHear with h | ⟨h, -⟩ | ⟨-, hAnswer⟩
  · cases h
  · cases h
  rcases greetHub_cases hGreet with h | ⟨-, hGreeting⟩
  · cases h
  obtain ⟨header, w₄, hBuild, hGiveUp⟩ | ⟨imsg, header, rc, w₄, w₅, hFarewell, hVerdict⟩ :=
    confirmHub_true hConfirm
  · exact absurd hGiveUp (hServed.builds hOpen hGreet hHear hBuild _ _)
  obtain ⟨v, v', hFrom, hVerify⟩ | ⟨v₁, v₂, v₃, hFirst, hReport, hSecond, freed, hFreed⟩ := hVerdict
  · exact verified hOpen hGreeting hAnswer hFarewell hFrom hVerify
  · exact absurd hFreed (hServed.verifies hOpen hGreet hHear hFarewell hFirst hReport hSecond freed)

theorem Greeting.unique {w₁ w₁' : World D K S Link} (h : Greeting env w w₁) (h' : Greeting env w w₁') :
    w₁ = w₁' := by
  obtain ⟨hRead, hStart, hWrite, -⟩ := h
  obtain ⟨hRead', hStart', hWrite', -⟩ := h'
  obtain ⟨hPair, rfl⟩ := hRead.unique hRead'
  cases hPair
  obtain ⟨hPair, rfl⟩ := hStart.unique hStart'
  cases hPair
  exact (hWrite.unique hWrite').2

theorem Answer.unique {w₁ w₃ w₃' : World D K S Link} (h : Answer env w₁ w₃) (h' : Answer env w₁ w₃') :
    w₃ = w₃' := by
  obtain ⟨hRead, hHeader, hProcess⟩ := h
  obtain ⟨hRead', hHeader', hProcess'⟩ := h'
  obtain ⟨hPair, rfl⟩ := hRead.unique hRead'
  cases hPair
  cases hHeader.symm.trans hHeader'
  exact (hProcess.unique hProcess').2

end Connect

/-! ## Sample -/

end Utu.Client
