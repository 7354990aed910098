import Utu.Protocol.Peer

/-!
# What the steps of a handshake do

One lemma for each step that the two handshakes are made of: what it leaves
alone, and what its success means.
-/

namespace Utu.Protocol
open Stackish LinkedForest Procedure
set_option autoImplicit false

variable {D K S U : Type} {env : Env D K S}

/-- The step adds to the memory and leaves the crypto state alone. -/
structure Quiet (w w' : World D K S U) : Prop where
  heap : Extends w.heap w'.heap
  state : w'.state = w.state
  random : w'.random = w.random

theorem Quiet.refl (w : World D K S U) : Quiet w w := ⟨Extends.refl _, rfl, rfl⟩

theorem Quiet.trans {w₁ w₂ w₃ : World D K S U} (h : Quiet w₁ w₂) (h' : Quiet w₂ w₃) : Quiet w₁ w₃ :=
  ⟨h.heap.trans h'.heap, h'.state.trans h.state, h'.random.trans h.random⟩

theorem Quiet.clear (w : World D K S U) : Quiet w w.clear := ⟨Extends.refl _, rfl, rfl⟩

section Nodes
variable {w w' : World D K S U}

theorem quiet_parseSeq {buf : Bytes} (hLen : buf.length < 2 ^ 31) {start : Nat}
    (hStart : start ≤ buf.length) {r : Option Nat × Nat}
    (h : Returns (parseSeq env buf start) w r w') : Quiet w w' := by
  obtain ⟨p, hParse, -, rfl⟩ := returns_parseSeq.mp h
  exact ⟨(nodeParseSeq_ok hLen hStart hParse).1, rfl, rfl⟩

theorem quiet_parse {buf : Bytes} (hLen : buf.length < 2 ^ 31) {node : Option Nat}
    (h : Returns (parse env buf) w node w') : Quiet w w' := by
  obtain ⟨next, h⟩ := returns_parse.mp h
  exact quiet_parseSeq hLen (Nat.zero_le _) h

theorem parseSeq_represents {buf : Bytes} (hLen : buf.length < 2 ^ 31) {start next node : Nat}
    (hStart : start ≤ buf.length) (h : Returns (parseSeq env buf start) w (some node, next) w') :
    ∃ t, Represents w'.heap none (some node) t := by
  obtain ⟨p, hParse, hr, rfl⟩ := returns_parseSeq.mp h
  obtain ⟨hRoot, -⟩ := Prod.mk.inj hr
  have hTree := (nodeParseSeq_ok hLen hStart hParse).2.2
  rw [← hRoot] at hTree
  exact hTree (Option.some_ne_none node)

theorem parse_state {buf : Bytes} {node : Option Nat} (h : Returns (parse env buf) w node w') :
    w'.state = w.state := by
  obtain ⟨next, h⟩ := returns_parse.mp h
  obtain ⟨p, -, -, rfl⟩ := returns_parseSeq.mp h
  rfl

theorem returns_destroyReturn {α : Type} {node : Option Nat} {a b : α} :
    Returns (destroy node >>= fun _ => pure a) w b w' ↔
      (∃ freed, nodeDestroy w.heap node = .ok freed) ∧ b = a ∧ w' = w := by
  simp only [returns_bind, returns_destroy, returns_pure]
  constructor
  · rintro ⟨-, t, ⟨hFreed, rfl⟩, rfl, rfl⟩
    exact ⟨hFreed, rfl, rfl⟩
  · rintro ⟨hFreed, rfl, rfl⟩
    exact ⟨(), _, ⟨hFreed, rfl⟩, rfl, rfl⟩

theorem returns_leave {rc b : Bool} {x y z : Option Nat} :
    Returns (leave rc x y z) w b w' ↔
      ((∃ freed, nodeDestroy w.heap x = .ok freed) ∧ (∃ freed, nodeDestroy w.heap y = .ok freed) ∧
        ∃ freed, nodeDestroy w.heap z = .ok freed) ∧ b = rc ∧ w' = w := by
  simp only [leave, returns_bind, returns_destroy, returns_pure]
  constructor
  · rintro ⟨-, t₁, ⟨hx, rfl⟩, -, t₂, ⟨hy, rfl⟩, -, t₃, ⟨hz, rfl⟩, rfl, rfl⟩
    exact ⟨⟨hx, hy, hz⟩, rfl, rfl⟩
  · rintro ⟨⟨hx, hy, hz⟩, rfl, rfl⟩
    exact ⟨(), _, ⟨hx, rfl⟩, (), _, ⟨hy, rfl⟩, (), _, ⟨hz, rfl⟩, rfl, rfl⟩

theorem returns_orAssert {α : Type} {what : String} {o : Option α} {a : α} :
    Returns (orAssert what o) w a w' ↔ o = some a ∧ w' = w := by
  cases o with
  | none => simp [orAssert, returns_throw]
  | some b => simp [orAssert, returns_pure, eq_comm]

theorem exit_leave {rc : Bool} {x y z : Option Nat} {p : Progress}
    (h : Returns (leave rc x y z >>= fun b => pure (Progress.exit b)) w p w') : p = .exit rc := by
  obtain ⟨b, t, hLeave, hPure⟩ := returns_bind.mp h
  obtain ⟨-, rfl, -⟩ := returns_leave.mp hLeave
  exact (returns_pure.mp hPure).1

end Nodes

/-! ## Frames -/

section Frames
variable {w w' : World D K S Wire}

theorem returns_io {U : Type} {w w' : World D K S U} {answer : Io} {b : Bool} :
    Returns (io answer) w b w' ↔ b = answer.rc ∧ w' = { w with errno := answer.errno } := by
  simp only [io, returns_bind, returns_modify, returns_pure]
  constructor
  · rintro ⟨-, t, rfl, rfl, rfl⟩
    exact ⟨rfl, rfl⟩
  · rintro ⟨rfl, rfl⟩
    exact ⟨(), _, rfl, rfl, rfl⟩

theorem quiet_io {U : Type} {w w' : World D K S U} {answer : Io} {b : Bool}
    (h : Returns (io answer) w b w') : Quiet w w' := by
  obtain ⟨-, rfl⟩ := returns_io.mp h
  exact ⟨Extends.refl _, rfl, rfl⟩

theorem quiet_nextIncoming {f : Incoming} (h : Returns nextIncoming w f w') : Quiet w w' := by
  simp only [nextIncoming, returns_bind, returns_get, returns_set, returns_pure] at h
  obtain ⟨v, t, ⟨rfl, rfl⟩, -, t', rfl, -, rfl⟩ := h
  exact ⟨Extends.refl _, rfl, rfl⟩

theorem quiet_nextOutgoing {f : Outgoing} (h : Returns nextOutgoing w f w') : Quiet w w' := by
  simp only [nextOutgoing, returns_bind, returns_get, returns_set, returns_pure] at h
  obtain ⟨v, t, ⟨rfl, rfl⟩, -, t', rfl, -, rfl⟩ := h
  exact ⟨Extends.refl _, rfl, rfl⟩

theorem quiet_splitFrame {data : Bytes} (hLen : data.length < 2 ^ 31)
    {r : Option Nat × Option Bytes × Option Nat} (h : Returns (splitFrame env data) w r w') :
    Quiet w w' ∧ w'.errno = 0 := by
  obtain ⟨⟨header, start⟩, w₁, hHeader, h⟩ := returns_bind.mp h
  have hFirst := quiet_parseSeq hLen (Nat.zero_le _) hHeader
  rcases returns_checkElse.mp h with ⟨-, h⟩ | ⟨-, h⟩
  · obtain ⟨-, rfl⟩ := returns_pure.mp h
    exact ⟨hFirst.trans (.clear _), rfl⟩
  · rcases returns_ite.mp h with ⟨hStart, h⟩ | ⟨-, h⟩
    · obtain ⟨⟨msg, stop⟩, w₂, hMsg, h⟩ := returns_bind.mp h
      have hSecond := (hFirst.trans (.clear _)).trans (quiet_parseSeq hLen (by omega) hMsg)
      rcases returns_checkElse.mp h with ⟨-, h⟩ | ⟨-, h⟩
      · obtain ⟨-, rfl⟩ := returns_pure.mp h
        exact ⟨hSecond.trans (.clear _), rfl⟩
      · simp only [returns_bind, returns_check, returns_pure] at h
        obtain ⟨b, t, ⟨-, rfl⟩, -, rfl⟩ := h
        exact ⟨(hSecond.trans (.clear _)).trans (.clear _), rfl⟩
    · simp only [returns_bind, returns_check, returns_pure] at h
      obtain ⟨b, t, ⟨-, rfl⟩, -, rfl⟩ := h
      exact ⟨(hFirst.trans (.clear _)).trans (.clear _), rfl⟩

/-- Either nothing was read, or the data of a frame was split. -/
theorem frameSourceRecv_cases {r : Option Nat × Option Bytes × Option Nat}
    (h : Returns (frameSourceRecv env) w r w') :
    Quiet w w' ∧ (r = (none, none, none) ∨ ∃ data w₁, data.length < 2 ^ 31 ∧
      Returns (splitFrame env data) w₁ r w') := by
  obtain ⟨f, w₁, hNext, h⟩ := returns_bind.mp h
  have h₁ := quiet_nextIncoming hNext
  obtain ⟨b, w₂, hReady, h⟩ := returns_bind.mp h
  have h₂ := h₁.trans (quiet_io hReady)
  rcases returns_ite.mp h with ⟨-, h⟩ | ⟨-, h⟩
  · obtain ⟨rfl, rfl⟩ := returns_pure.mp h
    exact ⟨h₂, .inl rfl⟩
  obtain ⟨b, w₃, hLength, h⟩ := returns_bind.mp h
  have h₃ := h₂.trans ((quiet_io hLength).trans (.clear _))
  rcases returns_checkElse.mp h with ⟨-, h⟩ | ⟨-, h⟩
  · obtain ⟨rfl, rfl⟩ := returns_pure.mp h
    exact ⟨h₃, .inl rfl⟩
  rcases returns_checkElse.mp h with ⟨-, h⟩ | ⟨-, h⟩
  · obtain ⟨rfl, rfl⟩ := returns_pure.mp h
    exact ⟨h₃.trans (.clear _), .inl rfl⟩
  obtain ⟨b, w₄, hFilled, h⟩ := returns_bind.mp h
  have h₄ := (h₃.trans (.clear _)).trans ((quiet_io hFilled).trans (.clear _))
  rcases returns_checkElse.mp h with ⟨-, h⟩ | ⟨-, h⟩
  · obtain ⟨rfl, rfl⟩ := returns_pure.mp h
    exact ⟨h₄, .inl rfl⟩
  split at h
  · simp only [returns_bind, returns_check, returns_pure] at h
    obtain ⟨b, t, ⟨-, rfl⟩, rfl, rfl⟩ := h
    exact ⟨h₄.trans (.clear _), .inl rfl⟩
  · rename_i data _
    rcases returns_checkElse.mp h with ⟨-, h⟩ | ⟨hLen, h⟩
    · obtain ⟨rfl, rfl⟩ := returns_pure.mp h
      exact ⟨h₄.trans (.clear _), .inl rfl⟩
    · simp only [Bool.and_eq_true, decide_eq_true_eq] at hLen
      have hSmall : data.length < 2 ^ 31 := by
        rw [hLen.1]
        exact Nat.lt_trans f.length.toNat_lt (by decide)
      exact ⟨(h₄.trans (.clear _)).trans (quiet_splitFrame hSmall h).1, .inr ⟨data, _, hSmall, h⟩⟩

/-- A body comes with its raw header, as a tree of its own, and with a clear `errno`. -/
theorem frameSourceRecv_body {msg : Nat} {hbuf : Option Bytes} {hdr : Option Nat}
    (h : Returns (frameSourceRecv env) w (some msg, hbuf, hdr) w') :
    Quiet w w' ∧ w'.errno = 0 ∧ (∃ t, Represents w'.heap none (some msg) t) ∧
      ∃ hb, hbuf = some hb ∧ hb.length < 2 ^ 31 := by
  obtain ⟨hQuiet, hNone | ⟨data, w₁, hLen, hSplit⟩⟩ := frameSourceRecv_cases h
  · cases hNone
  refine ⟨hQuiet, (quiet_splitFrame hLen hSplit).2, ?_⟩
  obtain ⟨⟨header, start⟩, w₂, hHeader, h⟩ := returns_bind.mp hSplit
  have hHb : (bmidstr data 0 start).length < 2 ^ 31 := by
    simp only [bmidstr, List.drop_zero, List.length_take]
    omega
  rcases returns_checkElse.mp h with ⟨-, h⟩ | ⟨-, h⟩
  · cases (returns_pure.mp h).1
  rcases returns_ite.mp h with ⟨hStart, h⟩ | ⟨-, h⟩
  · obtain ⟨⟨msg', stop⟩, w₃, hMsg, h⟩ := returns_bind.mp h
    have hBack : ∀ {t u : World D K S Wire}, msg' = some msg → Quiet t u → t = w₃ →
        ∃ t, Represents u.heap none (some msg) t := by
      rintro t u rfl hQuiet rfl
      obtain ⟨tree, hTree⟩ := parseSeq_represents hLen (by omega) hMsg
      exact ⟨tree, hTree.extend hQuiet.heap⟩
    rcases returns_checkElse.mp h with ⟨-, h⟩ | ⟨-, h⟩
    · obtain ⟨hr, rfl⟩ := returns_pure.mp h
      cases hr
      exact ⟨hBack rfl (.clear _) rfl, _, rfl, hHb⟩
    · simp only [returns_bind, returns_check, returns_pure] at h
      obtain ⟨b, t, ⟨-, rfl⟩, hr, rfl⟩ := h
      cases hr
      exact ⟨hBack rfl ((Quiet.clear _).trans (.clear _)) rfl, _, rfl, hHb⟩
  · simp only [returns_bind, returns_check, returns_pure] at h
    obtain ⟨b, t, ⟨-, rfl⟩, hr, rfl⟩ := h
    cases hr

theorem quiet_makeRoom {o : Outgoing} {r : Option Bool} (h : Returns (makeRoom o) w r w') :
    Quiet w w' ∧ (r ≠ none → w'.errno = 0) := by
  rcases returns_ite.mp h with ⟨-, h₁⟩ | ⟨-, h₁⟩
  · obtain ⟨rfl, rfl⟩ := returns_pure.mp h₁
    exact ⟨Quiet.refl w', fun h => absurd rfl h⟩
  obtain ⟨rc, w₁, hEarly, h₂⟩ := returns_bind.mp h₁
  have hQuiet := (quiet_io hEarly).trans (.clear _)
  rcases returns_checkElse.mp h₂ with ⟨-, h₃⟩ | ⟨-, h₃⟩
  · obtain ⟨-, rfl⟩ := returns_pure.mp h₃
    exact ⟨hQuiet, fun _ => rfl⟩
  rcases returns_checkElse.mp h₃ with ⟨-, h₄⟩ | ⟨-, h₄⟩
  all_goals
    obtain ⟨-, rfl⟩ := returns_pure.mp h₄
    exact ⟨hQuiet.trans (.clear _), fun _ => rfl⟩

theorem quiet_writeFrame {o : Outgoing} {rc : Bool} (h : Returns (writeFrame o) w rc w') :
    Quiet w w' ∧ w'.errno = 0 := by
  obtain ⟨b₁, w₁, hPut, h₁⟩ := returns_bind.mp h
  have hQuiet₁ := (quiet_io hPut).trans (.clear _)
  rcases returns_checkElse.mp h₁ with ⟨-, hExit⟩ | ⟨-, h₂⟩
  · obtain ⟨-, rfl⟩ := returns_pure.mp hExit
    exact ⟨hQuiet₁, rfl⟩
  obtain ⟨b₂, w₂, hPut, h₂⟩ := returns_bind.mp h₂
  have hQuiet₂ := hQuiet₁.trans ((quiet_io hPut).trans (.clear _))
  rcases returns_checkElse.mp h₂ with ⟨-, hExit⟩ | ⟨-, h₃⟩
  · obtain ⟨-, rfl⟩ := returns_pure.mp hExit
    exact ⟨hQuiet₂, rfl⟩
  obtain ⟨b₃, w₃, hPut, h₃⟩ := returns_bind.mp h₃
  have hQuiet₃ := hQuiet₂.trans ((quiet_io hPut).trans (.clear _))
  rcases returns_checkElse.mp h₃ with ⟨-, hExit⟩ | ⟨-, h₄⟩
  · obtain ⟨-, rfl⟩ := returns_pure.mp hExit
    exact ⟨hQuiet₃, rfl⟩
  obtain ⟨b₄, w₄, hPut, h₄⟩ := returns_bind.mp h₄
  have hQuiet₄ := hQuiet₃.trans ((quiet_io hPut).trans (.clear _))
  simp only [returns_bind, returns_check, returns_pure] at h₄
  obtain ⟨b, t, ⟨-, rfl⟩, -, rfl⟩ := h₄
  exact ⟨hQuiet₄, rfl⟩

/-- `FrameSource_send` only touches the wire and leaves `errno` clear. -/
theorem quiet_frameSourceSend {header : Option Bytes} {msg : Option Nat} {rc : Bool}
    (h : Returns (frameSourceSend env header msg) w rc w') : Quiet w w' ∧ w'.errno = 0 := by
  obtain ⟨data, w₁, hBstr, h₁⟩ := returns_bind.mp h
  obtain ⟨-, rfl⟩ := returns_bstr.mp hBstr
  cases header with
  | none => exact (returns_throw.mp h₁).elim
  | some header =>
    rcases returns_checkElse.mp h₁ with ⟨-, hExit⟩ | ⟨-, h₂⟩
    · obtain ⟨-, rfl⟩ := returns_pure.mp hExit
      exact ⟨.clear _, rfl⟩
    obtain ⟨o, w₂, hNext, h₃⟩ := returns_bind.mp h₂
    obtain ⟨room, w₃, hRoom, h₄⟩ := returns_bind.mp h₃
    have hQuiet := ((Quiet.clear _).trans (quiet_nextOutgoing hNext)).trans (quiet_makeRoom hRoom).1
    cases room with
    | some rc' =>
      obtain ⟨-, rfl⟩ := returns_pure.mp h₄
      exact ⟨hQuiet, (quiet_makeRoom hRoom).2 (Option.some_ne_none _)⟩
    | none =>
      have hWrite := quiet_writeFrame h₄
      exact ⟨hQuiet.trans hWrite.1, hWrite.2⟩

end Frames

/-! ## Crypto steps -/

section Steps
variable {w w' : World D K S U}

theorem createNonce_true (h : Returns createNonce w true w') :
    ∃ raw rest, w.random = raw :: rest ∧ raw.length = nonceLength ∧
      w' = { w with errno := 0, random := rest, state := { w.state with
        me := { w.state.me with nonce := Nonce.ofRaw raw } } } := by
  obtain ⟨draw, w₁, hRand, h₁⟩ := returns_bind.mp h
  obtain ⟨v, t, hGet, hDraw⟩ := returns_bind.mp hRand
  obtain ⟨rfl, rfl⟩ := returns_get.mp hGet
  split at hDraw
  · obtain ⟨rfl, rfl⟩ := returns_pure.mp hDraw
    obtain ⟨hFalse, -⟩ := returns_check.mp h₁
    cases hFalse
  · rename_i raw rest hRandom
    simp only [returns_bind, returns_set, returns_pure] at hDraw
    obtain ⟨-, t', rfl, rfl, rfl⟩ := hDraw
    split at h₁
    · obtain ⟨hFalse, -⟩ := returns_check.mp h₁
      cases hFalse
    · rename_i raw' hRaw
      split at hRaw
      · rename_i hLen
        cases hRaw
        simp only [returns_bind, returns_modifyState, returns_check] at h₁
        obtain ⟨-, t', rfl, -, rfl⟩ := h₁
        exact ⟨raw, rest, hRandom, hLen, rfl⟩
      · cases hRaw

/-- Encryption uses up the other side's nonce and nothing else of the state. -/
theorem encryptNode_state {key : S} {header : Bytes} {payload r : Option Nat}
    (h : Returns (encryptNode env key header payload) w r w') :
    (∃ nonce, w'.state = { w.state with them := { w.state.them with nonce } }) ∧
      w'.random = w.random ∧ w'.errno = 0 := by
  obtain ⟨pbuf, w₁, hBstr, h₁⟩ := returns_bind.mp h
  obtain ⟨-, rfl⟩ := returns_bstr.mp hBstr
  rcases returns_checkElse.mp h₁ with ⟨-, hExit⟩ | ⟨-, h₂⟩
  · obtain ⟨-, rfl⟩ := returns_pure.mp hExit
    exact ⟨⟨_, rfl⟩, rfl, rfl⟩
  obtain ⟨msg, w₂, hPacket, h₃⟩ := returns_bind.mp h₂
  have hState : (∃ nonce, w₂.state = { w₁.state with them := { w₁.state.them with nonce } }) ∧
      w₂.random = w₁.random := by
    obtain ⟨v, t, hGet, h₄⟩ := returns_bind.mp hPacket
    obtain ⟨rfl, rfl⟩ := returns_get.mp hGet
    rcases returns_checkElse.mp h₄ with ⟨-, hExit⟩ | ⟨-, h₅⟩
    · obtain ⟨-, rfl⟩ := returns_pure.mp hExit
      exact ⟨⟨_, rfl⟩, rfl⟩
    split at h₅
    · obtain ⟨-, rfl⟩ := returns_pure.mp h₅
      exact ⟨⟨_, rfl⟩, rfl⟩
    · simp only [returns_bind, returns_modifyState, returns_cons] at h₅
      obtain ⟨-, t, rfl, heap, -, rfl⟩ := h₅
      exact ⟨⟨_, rfl⟩, rfl⟩
  rcases returns_checkElse.mp h₃ with ⟨-, hExit⟩ | ⟨-, hExit⟩
  all_goals
    obtain ⟨-, rfl⟩ := returns_pure.mp hExit
    exact ⟨hState.1, hState.2, rfl⟩

theorem importTheirKey_eq {src : Option Bytes} {b : Bool}
    (h : Returns (importTheirKey env src) w b w') :
    ∃ key, w' = { w with errno := 0, state := { w.state with them := { w.state.them with key } } } := by
  obtain ⟨key, w₁, hKey, h₁⟩ := returns_bind.mp h
  have hClear : w₁ = w.clear := by
    cases src with
    | none => exact (returns_throw.mp hKey).elim
    | some blob =>
      obtain ⟨b', t, hCheck, h₂⟩ := returns_bind.mp hKey
      obtain ⟨-, rfl⟩ := returns_check.mp hCheck
      rcases returns_ite.mp h₂ with ⟨-, h₃⟩ | ⟨-, h₃⟩
      all_goals exact (returns_pure.mp h₃).2
  subst hClear
  cases key with
  | none =>
    obtain ⟨-, rfl⟩ := returns_pure.mp h₁
    exact ⟨_, rfl⟩
  | some key =>
    simp only [returns_bind, returns_modifyState, returns_pure] at h₁
    obtain ⟨-, t, rfl, -, rfl⟩ := h₁
    exact ⟨key, rfl⟩

/-- Agreeing on the shared key keeps the nodes in memory. -/
theorem createSharedKey_extends {header : Nat} {nonced b : Bool} {keyConfirm : KeyConfirm D K S U}
    (h : Returns (createSharedKey env header nonced keyConfirm) w b w') :
    Extends w.heap w'.heap := by
  obtain ⟨⟨rc, bound⟩, w₁, hDecons, h₁⟩ := returns_bind.mp h
  obtain ⟨-, rfl⟩ := returns_decons.mp hDecons
  obtain ⟨u, w₂, hNonce, h₂⟩ := returns_bind.mp h₁
  have hHeap₂ : w₂.heap = w.heap := by rw [returns_modifyState.mp hNonce]; rfl
  rw [← hHeap₂]
  rcases returns_checkElse.mp h₂ with ⟨-, hExit⟩ | ⟨-, h₃⟩
  · obtain ⟨-, rfl⟩ := returns_pure.mp hExit
    exact Extends.refl _
  obtain ⟨v, t, hGet, h₄⟩ := returns_bind.mp h₃
  obtain ⟨rfl, rfl⟩ := returns_get.mp hGet
  obtain ⟨b₁, w₃, hImport, h₅⟩ := returns_bind.mp h₄
  have hHeap₃ : w₃.heap = w₂.heap := by
    obtain ⟨key, rfl⟩ := importTheirKey_eq hImport
    rfl
  rw [← hHeap₃]
  rcases returns_checkElse.mp h₅ with ⟨-, hExit⟩ | ⟨-, h₆⟩
  · obtain ⟨-, rfl⟩ := returns_pure.mp hExit
    exact Extends.refl _
  obtain ⟨b₂, w₄, hConfirm, h₇⟩ := returns_bind.mp h₆
  have hExt := keyConfirm.keeps hConfirm
  refine hExt.trans ?_
  rcases returns_checkElse.mp h₇ with ⟨-, hExit⟩ | ⟨-, h₈⟩
  · obtain ⟨-, rfl⟩ := returns_pure.mp hExit
    exact Extends.refl _
  obtain ⟨v, t, hGet, h₉⟩ := returns_bind.mp h₈
  obtain ⟨rfl, rfl⟩ := returns_get.mp hGet
  rcases returns_checkElse.mp h₉ with ⟨-, hExit⟩ | ⟨-, h₁₀⟩
  · obtain ⟨-, rfl⟩ := returns_pure.mp hExit
    exact Extends.refl _
  obtain ⟨u, w₅, hShared, h₁₁⟩ := returns_bind.mp h₁₀
  have hHeap₅ : w₅.heap = w₄.heap := by rw [returns_modifyState.mp hShared]; rfl
  rw [← hHeap₅]
  rcases returns_checkElse.mp h₁₁ with ⟨-, hExit⟩ | ⟨-, hExit⟩
  all_goals
    obtain ⟨-, rfl⟩ := returns_pure.mp hExit
    exact Extends.refl _

/-- Both session keys are scheduled when the session is finalised. -/
theorem finalizeSession_true (hErrno : w.errno = 0) (h : Returns (finalizeSession env) w true w') :
    ∃ mine theirs, env.ltc.rijndaelSetup w.state.me.session = some mine ∧
      env.ltc.rijndaelSetup w.state.them.session = some theirs ∧
      w'.state.me.skey = mine ∧ w'.state.them.skey = theirs ∧ w'.errno = 0 := by
  obtain ⟨v, t, hGet, h₁⟩ := returns_bind.mp h
  obtain ⟨rfl, rfl⟩ := returns_get.mp hGet
  obtain ⟨u, w₁, hMine, h₂⟩ := returns_bind.mp h₁
  obtain rfl := returns_modifyState.mp hMine
  rcases returns_checkElse.mp h₂ with ⟨hFail, hExit⟩ | ⟨hGo, h₃⟩
  · obtain ⟨-, t, -, hPure⟩ := returns_bind.mp hExit
    obtain ⟨hSome, -⟩ := returns_pure.mp hPure
    simp [← hSome, hErrno] at hFail
  obtain ⟨mine, hSetup⟩ := Option.isSome_iff_exists.mp (Bool.and_eq_true_iff.mp hGo).1
  obtain ⟨u, w₂, hTheirs, h₄⟩ := returns_bind.mp h₃
  obtain rfl := returns_modifyState.mp hTheirs
  simp only [wipeSession, returns_bind, returns_check, returns_modifyState, returns_pure] at h₄
  obtain ⟨b, t₁, ⟨-, rfl⟩, -, t₂, rfl, hSome, rfl⟩ := h₄
  obtain ⟨theirs, hSetup'⟩ := Option.isSome_iff_exists.mp hSome.symm
  refine ⟨mine, theirs, hSetup, hSetup', ?_, ?_, rfl⟩
  · simp [hSetup, World.clear]
  · simp [hSetup', World.clear]

/-- The nonce in the receiver's answer is the one it draws for it. -/
theorem receiverSendFinal_nonce {msg : Nat} {header : Bytes}
    (h : Returns (receiverSendFinal env) w (some msg, header) w') :
    (∃ raw rest, w.random = raw :: rest ∧ raw.length = nonceLength ∧
      w'.state.me.nonce = Nonce.ofRaw raw) ∧ w'.state.shared = w.state.shared ∧ w'.errno = 0 := by
  rcases returns_checkElse.mp h with ⟨-, hExit⟩ | ⟨-, h₁⟩
  · cases (returns_pure.mp hExit).1
  obtain ⟨b, w₁, hNonce, h₂⟩ := returns_bind.mp h₁
  cases b with
  | false => cases (returns_pure.mp h₂).1
  | true =>
    obtain ⟨raw, rest, hRandom, hLen, rfl⟩ := createNonce_true hNonce
    obtain ⟨v, t, hGet, h₃⟩ := returns_bind.mp h₂
    obtain ⟨rfl, rfl⟩ := returns_get.mp hGet
    obtain ⟨payload, w₂, hCons, h₄⟩ := returns_bind.mp h₃
    obtain ⟨heap, -, rfl⟩ := returns_cons.mp hCons
    rcases returns_checkElse.mp h₄ with ⟨-, hExit⟩ | ⟨-, h₅⟩
    · obtain ⟨-, t, -, hPure⟩ := returns_bind.mp hExit
      cases (returns_pure.mp hPure).1
    obtain ⟨msg', w₃, hEncrypt, h₆⟩ := returns_bind.mp h₅
    obtain ⟨nonce, hState⟩ := (encryptNode_state hEncrypt).1
    simp only [returns_bind, returns_check, returns_destroy, returns_pure] at h₆
    obtain ⟨b, t₁, ⟨-, rfl⟩, -, t₂, ⟨-, rfl⟩, -, rfl⟩ := h₆
    exact ⟨⟨raw, rest, hRandom, hLen, by simp [hState]⟩, by simp [hState], rfl⟩

theorem decryptNode_errno {key : S} {header : Bytes} {packet node : Nat}
    (h : Returns (decryptNode env key header packet) w (some node) w') : w'.errno = 0 := by
  obtain ⟨-, -, w₂, -, -, rfl⟩ := decryptNode_cases h
  rfl

/-- The packet gave a node, and the node is the parse of authentic plaintext. -/
def Opened (env : Env D K S) (key : S) (header : Bytes) (packet node : Nat)
    (w w' : World D K S U) : Prop :=
  Returns (decryptNode env key header packet) w (some node) w' ∧
    ∃ t plain, ∃ w₁ w₂ : World D K S U, Represents w.heap none (some packet) t ∧
      Authentic env.ltc key w.state.me.nonce header t plain ∧
      Returns (parse env plain) w₁ (some node) w₂

/-- The packet in memory is sound. -/
def SoundAt (env : Env D K S) (w : World D K S U) (key : S) (header : Bytes) (packet : Nat) : Prop :=
  ∀ t, Represents w.heap none (some packet) t → SoundPacket env w key header packet t

theorem SoundAt.opened {key : S} {header : Bytes} {packet node : Nat} {t : Stackish.Tree D}
    (hSound : SoundAt env w key header packet) (hTree : Represents w.heap none (some packet) t)
    (h : Returns (decryptNode env key header packet) w (some node) w') :
    Opened env key header packet node w w' ∧ w'.state = w.state.bump := by
  obtain ⟨plain, w₁, w₂, hPacket, hParse, rfl⟩ := decryptNode_cases h
  obtain ⟨hAuthentic, hState⟩ := (hSound t hTree).authentic hTree hPacket
  exact ⟨⟨h, t, plain, _, _, hTree, hAuthentic, hParse⟩, (parse_state hParse).trans hState⟩

theorem Opened.sound {key : S} {header : Bytes} {packet node : Nat}
    (h : Opened env key header packet node w w') : SoundAt env w key header packet := by
  obtain ⟨-, t, plain, -, -, hTree, ⟨hName, tag, payload, hEnv, hCcm⟩, -⟩ := h
  intro t' hTree' tag' payload' _ hEnv'
  cases hTree.unique hTree'
  cases hEnv.symm.trans hEnv'
  refine ⟨fun hNot => ?_, fun _ => ⟨plain, tag, hCcm, Option.some_ne_none tag, fun hOne _ => ?_⟩⟩
  · rw [hName] at hNot
    cases hNot
  · exact (Option.some.inj (envelope_oneBlob hEnv hOne)).symm

/-- The format of the identity `I`, `Kir`, `Ni`, read backwards. -/
def identityFormat : List Expect := [.start, .number, .number, .blob, .string, .word initName]

/-- What stands behind a processed identity: the shared key was agreed on, the packet opened with it, and
its contents could be taken apart. -/
theorem receiverProcessResponse_true {hbuf : Bytes} {packet : Nat} {keyConfirm : KeyConfirm D K S U}
    (h : Returns (receiverProcessResponse env hbuf packet keyConfirm) w true w') :
    w'.errno = 0 ∧ ∃ hdr w₁ w₂ ident w₃, Returns (parse env hbuf) w (some hdr) w₁ ∧
      Returns (createSharedKey env hdr false keyConfirm) w₁.clear true w₂ ∧
      Returns (decryptNode env w₂.state.shared hbuf packet) w₂.clear (some ident) w₃ ∧
      w'.state.shared = w₃.state.shared ∧
      ∃ bound, nodeDecons env.lib w₃.heap 0 true ident identityFormat = .ok (true, bound) := by
  obtain ⟨header, w₁, hParse, h₁⟩ := returns_bind.mp h
  cases header with
  | none =>
    obtain ⟨-, t, -, hPure⟩ := returns_bind.mp h₁
    cases (returns_pure.mp hPure).1
  | some hdr =>
    rcases returns_checkElse.mp h₁ with ⟨-, hExit⟩ | ⟨-, h₂⟩
    · cases (returns_pure.mp hExit).1
    obtain ⟨rc, w₂, hKey, h₃⟩ := returns_bind.mp h₂
    obtain ⟨u, t, hDestroy, h₄⟩ := returns_bind.mp h₃
    obtain ⟨-, rfl⟩ := returns_destroy.mp hDestroy
    rcases returns_checkElse.mp h₄ with ⟨-, hExit⟩ | ⟨hRc, h₅⟩
    · cases (returns_pure.mp hExit).1
    obtain rfl := (Bool.and_eq_true_iff.mp hRc).1
    obtain ⟨v, t', hGet, h₆⟩ := returns_bind.mp h₅
    obtain ⟨rfl, rfl⟩ := returns_get.mp hGet
    obtain ⟨ident, w₃, hDecrypt, h₇⟩ := returns_bind.mp h₆
    cases ident with
    | none =>
      obtain ⟨-, t', -, hPure⟩ := returns_bind.mp h₇
      cases (returns_pure.mp hPure).1
    | some ident =>
      rcases returns_checkElse.mp h₇ with ⟨-, hExit⟩ | ⟨-, h₈⟩
      · cases (returns_pure.mp hExit).1
      obtain ⟨⟨rc, bound⟩, w₄, hDecons, h₉⟩ := returns_bind.mp h₈
      obtain ⟨hParts, rfl⟩ := returns_decons.mp hDecons
      obtain ⟨v, t', hGet, h₁₀⟩ := returns_bind.mp h₉
      obtain ⟨rfl, rfl⟩ := returns_get.mp hGet
      obtain ⟨u₁, w₅, hThem, h₁₁⟩ := returns_bind.mp h₁₀
      obtain rfl := returns_modifyState.mp hThem
      obtain ⟨u₂, w₆, hIdent, h₁₂⟩ := returns_bind.mp h₁₁
      obtain ⟨-, rfl⟩ := returns_destroy.mp hIdent
      rcases returns_checkElse.mp h₁₂ with ⟨-, hExit⟩ | ⟨hPass, hExit⟩
      · cases (returns_pure.mp hExit).1
      obtain rfl := (Bool.and_eq_true_iff.mp hPass).1
      obtain ⟨-, rfl⟩ := returns_pure.mp hExit
      exact ⟨rfl, hdr, w₁, t, ident, w₃, hParse, hKey, hDecrypt, rfl, bound, hParts⟩

end Steps

end Utu.Protocol
