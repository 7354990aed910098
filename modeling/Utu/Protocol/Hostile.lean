import Utu.Protocol.Hate
import Utu.Stackish.Release

/-!
# Hate messages from anyone

A challenge or an answer is a node that came over the wire, signed by whoever
sent it. The calls that take it are safe when everything they hand on is: what
the formats turn away can be logged, the payload can be read, a good signature
is over a tree, and the level fits the shift.
-/

namespace Utu.Protocol
open Stackish LinkedForest Procedure
set_option autoImplicit false

variable {D K S U : Type}

/-! ## The payload -/

section Payload

/-- A tree that is handed out, or NULL. -/
def Handed (absent : Prop) (good : Stackish.Tree D → Prop) (t : Stackish.Tree D) : Prop :=
  (t = .nil ∧ absent) ∨ (t ≠ .nil ∧ good t)

/-- A reading that comes to its end, with a good tree or where none is needed. -/
def EndsWell (absent : Prop) (good : Stackish.Tree D → Prop) (d : Doc D) : Ending D → Prop
  | .ended | .refused _ => Handed absent good d.root
  | .closed t _ => Handed absent good t
  | .lexError => d.root.height < maxTreeDeep ∧ absent
  | .crashed | .overrun => False

/-- What `Node_parse` makes of the text is good. -/
def ParsesWell (lib : DoubleLib D) (buf : Bytes) (absent : Prop) (good : Stackish.Tree D → Prop) : Prop :=
  (endsInSpace buf = false ∧ absent) ∨
    (endsInSpace buf = true ∧ ∃ d x, ReadsTo lib buf 0 d x ∧ EndsWell absent good d x)

variable {env : Env D K S} {w : World D K S U} {P : Option Nat → World D K S U → Prop} {absent : Prop}
  {good : Stackish.Tree D → Prop}

theorem handed_iff (hNone : ∀ heap, Extends w.heap heap → (P none (w.grown heap) ↔ absent))
    (hSome : ∀ heap root t, Extends w.heap heap → (w.grown heap).Holds root t → (P (some root) (w.grown heap) ↔ good t))
    {heap : Heap D} (hExt : Extends w.heap heap) {root : Option Nat} {t : Stackish.Tree D}
    (hTree : Represents heap none root t) : P root (w.grown heap) ↔ Handed absent good t := by
  have hNil := represents_ne_nil hTree
  cases root with
  | none =>
    rw [hNone heap hExt, Handed, hNil.mp rfl]
    simp
  | some root =>
    have hNode : t ≠ .nil := fun h => by cases hNil.mpr h
    rw [hSome heap root t hExt hTree, Handed]
    simp [hNode]

theorem endsWell_iff (hNone : ∀ heap, Extends w.heap heap → (P none (w.grown heap) ↔ absent))
    (hSome : ∀ heap root t, Extends w.heap heap → (w.grown heap).Holds root t → (P (some root) (w.grown heap) ↔ good t))
    {buf : Bytes} {d : Doc D} {x : Ending D} {p : Parsed D} (hEnding : Ends buf w.heap d (.ok p) x) :
    P p.root (w.grown p.heap) ↔ EndsWell absent good d x := by
  cases x with
  | ended | refused | closed =>
    obtain ⟨root, heap, hOk, hExt, hTree⟩ := hEnding
    cases hOk
    exact handed_iff hNone hSome hExt hTree
  | lexError =>
    simp only [Ends] at hEnding
    split at hEnding
    · rename_i hDeep
      obtain ⟨next, heap, hOk, hExt⟩ := hEnding
      cases hOk
      rw [hNone heap hExt, EndsWell]
      simp [hDeep]
    · cases hEnding
  | crashed | overrun => cases hEnding

theorem EndsWell.ok {buf : Bytes} {heap : Heap D} {d : Doc D} {x : Ending D} (h : EndsWell absent good d x)
    {r : Run (Parsed D)} (hEnding : Ends buf heap d r x) : ∃ p, r = .ok p := by
  cases x with
  | ended | refused | closed =>
    obtain ⟨root, heap', rfl, -⟩ := hEnding
    exact ⟨_, rfl⟩
  | lexError =>
    rw [Ends, if_pos h.1] at hEnding
    obtain ⟨next, heap', rfl, -⟩ := hEnding
    exact ⟨_, rfl⟩
  | crashed | overrun => exact h.elim

theorem yields_parse_finishes (env : Env D K S) (hErrno : w.errno = 0) {buf : Bytes} (hLen : buf.length < 2 ^ 31) :
    (∃ fuel, Yields (parse { env with fuel } buf) w P) ↔
      ∃ p, Finishes (nodeParseSeq env.lib · w.heap 0 buf 0) (.ok p) ∧ P p.root (w.grown p.heap) := by
  have hWorld : ∀ {p : Parsed D}, p.errno = 0 →
      ({ w with heap := p.heap, errno := p.errno } : World D K S U) = w.grown p.heap := by
    intro p hp
    rw [hp, World.grown, ← hErrno]
  constructor
  · rintro ⟨fuel, root, w', hParse, hP⟩
    obtain ⟨next, hSeq⟩ := returns_parse.mp hParse
    obtain ⟨p, hOk, hr, rfl⟩ := returns_parseSeq.mp hSeq
    obtain ⟨rfl, -⟩ := Prod.mk.inj hr
    obtain ⟨-, hClear, -⟩ := nodeParseSeq_ok hLen (Nat.zero_le _) hOk
    rw [hWorld hClear] at hP
    rw [hErrno] at hOk
    exact ⟨p, ⟨by simp, fuel, hOk⟩, hP⟩
  · rintro ⟨p, ⟨-, fuel, hOk⟩, hP⟩
    obtain ⟨-, hClear, -⟩ := nodeParseSeq_ok hLen (Nat.zero_le _) hOk
    refine ⟨fuel, p.root, w.grown p.heap, returns_parse.mpr ⟨p.next, ?_⟩, hP⟩
    refine returns_parseSeq.mpr ⟨p, ?_, rfl, (hWorld hClear).symm⟩
    rw [hErrno]
    exact hOk

theorem yields_parse_iff (env : Env D K S) (hErrno : w.errno = 0) {buf : Bytes} (hLen : buf.length < 2 ^ 31)
    (hNone : ∀ heap, Extends w.heap heap → (P none (w.grown heap) ↔ absent))
    (hSome : ∀ heap root t, Extends w.heap heap → (w.grown heap).Holds root t →
      (P (some root) (w.grown heap) ↔ good t)) :
    (∃ fuel, Yields (parse { env with fuel } buf) w P) ↔ ParsesWell env.lib buf absent good := by
  rw [yields_parse_finishes env hErrno hLen, ParsesWell]
  cases hEnds : endsInSpace buf with
  | false =>
    have hRefused : Finishes (nodeParseSeq env.lib · w.heap 0 buf 0) (.ok ⟨none, 0 + 1, w.heap, 0⟩) :=
      finishes_refused (by simp [hEnds]) w.heap 0
    have hIff := hNone w.heap (Extends.refl _)
    constructor
    · rintro ⟨p, hFinishes, hP⟩
      cases hFinishes.unique (nodeParseSeq_stable env.lib w.heap 0 buf 0) hRefused
      exact .inl ⟨rfl, hIff.mp hP⟩
    · rintro (⟨-, hAbsent⟩ | ⟨hFalse, -⟩)
      · exact ⟨_, hRefused, hIff.mpr hAbsent⟩
      · cases hFalse
  | true =>
    constructor
    · rintro ⟨p, hFinishes, hP⟩
      obtain ⟨d, x, hRead⟩ := exists_readsTo hLen hEnds w.heap (Nat.zero_le _) hFinishes
      have hEnding := hRead.ends hLen hEnds w.heap (Nat.zero_le _) hFinishes
      exact .inr ⟨rfl, d, x, hRead, (endsWell_iff hNone hSome hEnding).mp hP⟩
    · rintro (⟨hFalse, -⟩ | ⟨-, d, x, hRead, hWell⟩)
      · cases hFalse
      · obtain ⟨r, hEnding, hFinishes⟩ := hRead.finishes hLen hEnds w.heap (Nat.zero_le _)
        obtain ⟨p, rfl⟩ := hWell.ok hEnding
        exact ⟨p, hFinishes, (endsWell_iff hNone hSome hEnding).mpr hWell⟩

end Payload

/-! ## The signed message -/

/-- What the log gets when the format does not fit can be printed. -/
def Loggable (lib : DoubleLib D) (format : List Expect) (t : Stackish.Tree D) : Prop :=
  ∀ u, blames format t = some u → ∃ out, bstrTree lib u = .ok out

/-- The blobs of a tree in the format of a signed message. -/
def signedView (t : Stackish.Tree D) : Option SignedParts := (fieldsOf signedFormat t).map (signedParts [])

section Fields
variable {h : Heap D} {bound fields : List (Bound D)}

theorem shows_at (hBound : List.Forall₂ (Shows h) bound fields) (i : Nat) :
    (bound[i]? = none ∧ fields[i]? = none) ∨ ∃ b f, bound[i]? = some b ∧ fields[i]? = some f ∧ Shows h b f := by
  induction hBound generalizing i with
  | nil => exact .inl ⟨rfl, rfl⟩
  | cons hHead _ ih =>
    cases i with
    | zero => exact .inr ⟨_, _, rfl, rfl, hHead⟩
    | succ i => simpa using ih i

theorem boundNumber_shows (hBound : List.Forall₂ (Shows h) bound fields) (i : Nat) (old : UInt64) :
    boundNumber bound i old = boundNumber fields i old := by
  rcases shows_at hBound i with ⟨hb, hf⟩ | ⟨b, f, hb, hf, hShows⟩
  · rw [boundNumber, boundNumber, hb, hf]
  · rw [boundNumber, boundNumber, hb, hf]
    cases b <;> cases f <;> first | rfl | exact hShows | exact hShows.elim

theorem boundString_shows (hBound : List.Forall₂ (Shows h) bound fields) (i : Nat) (old : Option Bytes) :
    boundString h bound i old = boundString [] fields i old := by
  rcases shows_at hBound i with ⟨hb, hf⟩ | ⟨b, f, hb, hf, hShows⟩
  · rw [boundString, boundString, hb, hf]
  · rw [boundString, boundString, hb, hf]
    cases b with
    | shared a =>
      cases f with
      | copied s =>
        obtain ⟨cell, hCell, hValue | hValue⟩ := hShows
        · simp only [nodeString, hCell, hValue]
        · simp only [nodeString, hCell, hValue]
      | number | float | shared | group => exact hShows.elim
    | number | float | copied | group => cases f <;> first | rfl | exact hShows | exact hShows.elim

theorem signedParts_shows (hBound : List.Forall₂ (Shows h) bound fields) :
    signedParts h bound = signedParts [] fields := by
  simp only [signedParts, boundString_shows hBound]

end Fields

section Decons
variable {env : Env D K S} {w : World D K S U} {node : Nat} {t : Stackish.Tree D} {copy : Bool} {format : List Expect}

theorem loggable_of_returns (hErrno : w.errno = 0) (hTree : w.Holds node t) {r : Bool × List (Bound D)}
    {w' : World D K S U} (h : Returns (decons env node copy format) w r w') : Loggable env.lib format t := by
  obtain ⟨hDecons, -⟩ := returns_decons.mp h
  rw [hErrno] at hDecons
  exact (nodeDecons_returns_iff env.lib hTree copy format).mp ⟨r, hDecons⟩

/-- `Node_decons` on a tree that can be logged. -/
theorem returns_decons_loggable (env : Env D K S) (hErrno : w.errno = 0) (hTree : w.Holds node t) (copy : Bool)
    (hLog : Loggable env.lib format t) :
    (fieldsOf format t = none ∧ ∃ bound, Returns (decons env node copy format) w (false, bound) w) ∨
      ∃ fields bound, fieldsOf format t = some fields ∧ Returns (decons env node copy format) w (true, bound) w ∧
        List.Forall₂ (Shows w.heap) bound fields := by
  obtain ⟨⟨rc, bound⟩, hDecons⟩ := (nodeDecons_returns_iff env.lib hTree copy format).mpr hLog
  rw [← hErrno] at hDecons
  have hClear : w = w.clear := (World.clear_of_errno hErrno).symm
  obtain ⟨hTrue, hAccepts⟩ := nodeDecons_fields env.lib hTree copy format w.errno
  cases hFields : fieldsOf format t with
  | none =>
    cases rc with
    | false => exact .inl ⟨rfl, bound, returns_decons.mpr ⟨hDecons, hClear⟩⟩
    | true =>
      obtain ⟨-, fields, hSome, -⟩ := hTrue bound hDecons
      rw [hFields] at hSome
      cases hSome
  | some fields =>
    obtain ⟨bound', hDecons', hBound⟩ := hAccepts hErrno fields hFields
    exact .inr ⟨fields, bound', rfl, returns_decons.mpr ⟨hDecons', hClear⟩, hBound⟩

end Decons

/-- What `CryptState_verify_signature` comes to once the format is read. -/
def Verdict (env : Env D K S) (name : Option Bytes) (stat : Bool) (w : World D K S U)
    (P : Option Nat × Bool × Option K → World D K S U → Prop) : Option SignedParts → Prop
  | none => P (none, stat, none) w
  | some parts =>
    if biseq parts.name name = 0 then P (none, stat, none) w
    else
      match parts.pubkey with
      | none => False
      | some blob =>
        match env.ltc.eccImport blob with
        | none => P (none, stat, none) w
        | some key =>
          match env.ltc.eccVerifyHash parts.signature parts.hash key with
          | none => P (none, stat, some key) w
          | some good =>
            match parts.payload with
            | none => False
            | some payload => Yields (parse env payload) w fun result w' => P (result, good, some key) w'.clear

theorem yields_verify_iff (env : Env D K S) {w : World D K S U} (hErrno : w.errno = 0) {node : Nat}
    {t : Stackish.Tree D}
    (hTree : w.Holds node t) (name : Option Bytes) (stat : Bool)
    {P : Option Nat × Bool × Option K → World D K S U → Prop} :
    Yields (verifySignature env name node stat) w P ↔
      Loggable env.lib signedFormat t ∧ Verdict env name stat w P (signedView t) := by
  have hClear : w.clear = w := World.clear_of_errno hErrno
  have hAfter : ∀ (c : Bool) (r : Option Nat × Bool × Option K) (v : World D K S U),
      Yields (check c >>= fun _ => pure r : Call D K S U _) v P ↔ P r v.clear := by
    intro c r v
    rw [(returns_check.mpr ⟨rfl, rfl⟩ : Returns (check c) v _ v.clear).then_iff, yields_pure_iff]
  have hFailed : ∀ r, Yields (check false >>= fun _ => pure r : Call D K S U _) w P ↔ P r w := by
    intro r
    rw [hAfter, hClear]
  by_cases hLog : Loggable env.lib signedFormat t
  · simp only [hLog, true_and]
    rcases returns_decons_loggable env hErrno hTree false hLog with
      ⟨hNone, bound, hDecons⟩ | ⟨fields, bound, hFields, hDecons, hBound⟩
    · have hView : signedView t = none := by
        rw [signedView, hNone]
        rfl
      rw [hView, verifySignature, hDecons.then_iff, (returns_get.mpr ⟨rfl, rfl⟩).then_iff, yields_checkFail_iff rfl,
        hClear, yields_pure_iff]
      rfl
    · have hView : signedView t = some (signedParts w.heap bound) := by
        rw [signedView, hFields, signedParts_shows hBound]
        rfl
      rw [hView, verifySignature, hDecons.then_iff, (returns_get.mpr ⟨rfl, rfl⟩).then_iff,
        yields_checkPass_iff rfl hErrno]
      simp only [Verdict, signedParts]
      by_cases hName : biseq (boundString w.heap bound 0 none) name = 0
      · simp only [hName, if_true]
        rw [yields_checkFail_iff (by simp), hClear, yields_pure_iff]
      simp only [hName, if_false]
      rw [yields_checkPass_iff (by simpa using hName) hErrno]
      cases hKey : boundString w.heap bound 1 none with
      | none =>
        simp only [bstrEccKey, iff_false]
        rintro ⟨r, w', hRun, -⟩
        obtain ⟨r', w₁, hThrow, -⟩ := returns_bind.mp hRun
        exact returns_throw.mp hThrow
      | some blob =>
        have hImport : Returns (bstrEccKey env (some blob)) w (env.ltc.eccImport blob) w :=
          returns_bstrEccKey.mpr ⟨blob, rfl, by rw [if_pos hErrno], hClear.symm⟩
        rw [hImport.then_iff]
        dsimp only
        cases env.ltc.eccImport blob with
        | none => exact hFailed _
        | some key =>
          rw [yields_checkPass_iff rfl hErrno]
          dsimp only
          cases env.ltc.eccVerifyHash (boundString w.heap bound 2 none) (boundString w.heap bound 3 none) key with
          | none => exact hFailed _
          | some good =>
            rw [yields_checkPass_iff rfl hErrno]
            dsimp only
            cases boundString w.heap bound 4 none with
            | none => exact yields_throw_iff
            | some payload =>
              dsimp only
              simp only [yields_bind_iff (m := parse env payload), hAfter]
  · simp only [hLog, false_and, iff_false]
    rintro ⟨r, w', hRun, -⟩
    obtain ⟨r', w₁, hDecons, -⟩ := returns_bind.mp hRun
    exact hLog (loggable_of_returns hErrno hTree hDecons)

/-- A message that can be opened: the log gets what can be printed; a message in the format with the
expected name has a key; and if its signature can be looked at, it has a payload that is read to its end,
which is a good tree if the signature is valid. -/
def SafeMessage (env : Env D K S) (name : Option Bytes) (t : Stackish.Tree D) (good : Stackish.Tree D → Prop) : Prop :=
  Loggable env.lib signedFormat t ∧
    ∀ parts, signedView t = some parts → biseq parts.name name ≠ 0 →
      ∃ blob, parts.pubkey = some blob ∧
        ∀ key, env.ltc.eccImport blob = some key →
          ∀ stat, env.ltc.eccVerifyHash parts.signature parts.hash key = some stat →
            ∃ payload, parts.payload = some payload ∧
              ParsesWell env.lib payload (stat = false) fun t' => stat = true → good t'

section Open
variable {w : World D K S U} {α : Type} {failed : α} {rest : Nat → Call D K S U α} {Q : α → World D K S U → Prop}
  {good : Stackish.Tree D → Prop}

/-- `openSigned` behind the signature. -/
def continued (failed : α) (rest : Nat → Call D K S U α) (inner : Option Nat) (stat : Bool) : Call D K S U α := do
  if !(← check stat) then return failed
  match inner with
  | none => throw (.assertFailed "root cannot be NULL")
  | some inner => rest inner

theorem yields_openSigned (env : Env D K S) (node : Nat) :
    Yields (openSigned env failed node rest) w Q ↔
      Yields (verifySignature env w.state.them.name node false) w
        fun r w' => Yields (continued failed rest r.1 r.2.1) w' Q := by
  rw [openSigned, (returns_get.mpr ⟨rfl, rfl⟩).then_iff, yields_bind_iff]
  rfl

theorem yields_continued_false (hFailed : ∀ w', Q failed w') (rest : Nat → Call D K S U α) (inner : Option Nat)
    (w : World D K S U) : Yields (continued failed rest inner false) w Q := by
  unfold continued
  rw [yields_checkFail_iff rfl, yields_pure_iff]
  exact hFailed _

/-- What one of the two calls does with a message comes down to what it does with a good tree. -/
theorem yields_openSigned_iff (env : Env D K S) (hErrno : w.errno = 0) {node : Nat} {t : Stackish.Tree D}
    (hTree : w.Holds node t)
    (hSized : ∀ parts payload, signedView t = some parts → parts.payload = some payload → payload.length < 2 ^ 31)
    (hFailed : ∀ w', Q failed w')
    (hRest : ∀ heap inner t', Extends w.heap heap → (w.grown heap).Holds inner t' →
      (Yields (rest inner) (w.grown heap) Q ↔ good t')) :
    (∃ fuel, Yields (openSigned { env with fuel } failed node rest) w Q) ↔
      SafeMessage env w.state.them.name t good := by
  have hFalse := yields_continued_false hFailed rest
  simp only [yields_openSigned, yields_verify_iff _ hErrno hTree, exists_and_left, SafeMessage]
  refine and_congr_right fun _ => ?_
  cases hView : signedView t with
  | none =>
    simp only [Verdict, hFalse]
    simp
  | some parts =>
    simp only [Verdict, hFalse, Option.some.injEq, forall_eq']
    by_cases hName : biseq parts.name w.state.them.name = 0
    · simp [hName]
    simp only [hName, if_false, ne_eq, not_false_eq_true, true_implies]
    cases hKey : parts.pubkey with
    | none => simp
    | some blob =>
      simp only [Option.some.injEq, exists_eq_left']
      cases env.ltc.eccImport blob with
      | none => simp
      | some key =>
        simp only [Option.some.injEq, forall_eq']
        cases env.ltc.eccVerifyHash parts.signature parts.hash key with
        | none => simp
        | some stat =>
          simp only [Option.some.injEq, forall_eq']
          cases hPayload : parts.payload with
          | none => simp
          | some payload =>
            simp only [Option.some.injEq, exists_eq_left']
            refine yields_parse_iff env hErrno (hSized parts payload hView hPayload) ?_ ?_
            · intro heap hExt
              cases stat with
              | false => simp [hFalse]
              | true =>
                unfold continued
                rw [yields_checkPass_iff rfl rfl]
                simpa using yields_throw_iff
            · intro heap root t' hExt hRoot
              have hSame : (w.grown heap).clear = w.grown heap := World.clear_of_errno hErrno
              cases stat with
              | false => simp [hFalse]
              | true =>
                unfold continued
                rw [yields_checkPass_iff rfl rfl, hSame]
                simpa using hRest heap root t' hExt hRoot

/-- Under a stale `errno` no message is opened. -/
theorem yields_openSigned_stale (env : Env D K S) (hErrno : w.errno ≠ 0) {node : Nat} {t : Stackish.Tree D}
    (hTree : w.Holds node t) (hFailed : ∀ w', Q failed w') : Yields (openSigned env failed node rest) w Q := by
  rw [yields_openSigned]
  exact (returns_verify_stale env hErrno hTree _ false).yields (yields_continued_false hFailed rest none w.clear)

end Open

/-! ## Challenges -/

/-- The hash, the two halves and the level of a tree in the format of a challenge. -/
def challengeView (t : Stackish.Tree D) : Option (Option Bytes × Nonce × UInt64) :=
  (fieldsOf challengeFormat t).map fun fields =>
    (boundString [] fields 0 none, ⟨boundNumber fields 1 0, boundNumber fields 2 0⟩, boundNumber fields 3 0)

/-- A challenge that is turned away can be logged, and one that is taken on has a level that can be shifted. -/
def SafeChallenge (lib : DoubleLib D) (limit : UInt32) (t : Stackish.Tree D) : Prop :=
  Loggable lib challengeFormat t ∧ ∀ hash left level,
    challengeView t = some (some hash, ⟨left, 0⟩, level) → level ≤ limit.toUInt64 → level.toNat + 1 < 64

/-- The shift amount `level + 1` is below the width of the level. -/
def Shiftable (r : Option (Bytes × UInt64 × UInt64)) : Prop :=
  ∀ hash left level, r = some (hash, left, level) → level.toNat + 1 < 64

section Take
variable {w : World D K S U} {inner : Nat} {t : Stackish.Tree D}

theorem yields_takeChallenge_iff (env : Env D K S) (hErrno : w.errno = 0) (hTree : w.Holds inner t) (limit : UInt32) :
    Yields (takeChallenge env inner limit) w (fun r _ => Shiftable r) ↔ SafeChallenge env.lib limit t := by
  have hClear : w.clear = w := World.clear_of_errno hErrno
  have hNone : Shiftable none := by
    rintro hash left level ⟨⟩
  rw [SafeChallenge]
  by_cases hLog : Loggable env.lib challengeFormat t
  · simp only [hLog, true_and]
    rcases returns_decons_loggable env hErrno hTree true hLog with
      ⟨hFields, bound, hDecons⟩ | ⟨fields, bound, hFields, hDecons, hBound⟩
    · have hView : challengeView t = none := by
        rw [challengeView, hFields]
        rfl
      rw [takeChallenge, hDecons.then_iff, yields_checkFail_iff rfl, yields_pure_iff, hView]
      simp [hNone]
    · have hView : challengeView t = some (boundString w.heap bound 0 none,
          ⟨boundNumber bound 1 0, boundNumber bound 2 0⟩, boundNumber bound 3 0) := by
        rw [challengeView, hFields, boundString_shows hBound, boundNumber_shows hBound, boundNumber_shows hBound,
          boundNumber_shows hBound]
        rfl
      rw [takeChallenge, hDecons.then_iff, yields_checkPass_iff rfl hErrno,
        (returns_get.mpr ⟨rfl, rfl⟩).then_iff, hView]
      simp only [Option.some.injEq, Prod.mk.injEq, Nonce.mk.injEq]
      by_cases hRight : boundNumber bound 2 0 = 0
      · rw [yields_checkPass_iff (by simpa using hRight) hErrno]
        by_cases hLevel : boundNumber bound 3 0 ≤ limit.toUInt64
        · rw [yields_checkPass_iff (by simpa using hLevel) hErrno]
          cases boundString w.heap bound 0 none with
          | none =>
            rw [(returns_check.mpr ⟨rfl, rfl⟩ : Returns (check false) w _ w.clear).then_iff, yields_pure_iff]
            simp [hNone]
          | some hash =>
            rw [yields_checkPass_iff rfl hErrno, yields_pure_iff]
            constructor
            · rintro h hash' left level ⟨-, -, rfl⟩ -
              exact h _ _ _ rfl
            · rintro h hash' left level ⟨⟩
              exact h hash _ _ ⟨rfl, ⟨rfl, hRight⟩, rfl⟩ hLevel
        · rw [yields_checkFail_iff (by simpa using hLevel), yields_pure_iff]
          refine iff_of_true hNone ?_
          rintro hash left level ⟨-, -, rfl⟩ hLe
          exact absurd hLe hLevel
      · rw [yields_checkFail_iff (by simpa using hRight), yields_pure_iff]
        refine iff_of_true hNone ?_
        rintro hash left level ⟨-, ⟨-, hZero⟩, -⟩ -
        exact absurd hZero hRight
  · simp only [hLog, false_and, iff_false]
    rintro ⟨r, w', hRun, -⟩
    obtain ⟨r', w₁, hDecons, -⟩ := returns_bind.mp hRun
    exact hLog (loggable_of_returns hErrno hTree hDecons)

theorem yields_compareAnswer_iff (env : Env D K S) (hErrno : w.errno = 0) (hTree : w.Holds inner t)
    (expecting : Nonce) :
    Yields (compareAnswer env inner expecting) w (fun _ _ => True) ↔ Loggable env.lib answerFormat t := by
  constructor
  · rintro ⟨r, w', hRun, -⟩
    obtain ⟨r', w₁, hDecons, -⟩ := returns_bind.mp hRun
    exact loggable_of_returns hErrno hTree hDecons
  · intro hLog
    have hBehind : ∀ rc bound, Returns (decons env inner false answerFormat) w (rc, bound) w →
        Yields (compareAnswer env inner expecting) w (fun _ _ => True) := by
      intro rc bound hDecons
      refine hDecons.then (yields_checkElse (fun _ => yields_pure trivial) fun _ => ?_)
      exact yields_checkElse (fun _ => yields_pure trivial) fun _ => yields_pure trivial
    rcases returns_decons_loggable env hErrno hTree false hLog with ⟨-, bound, hDecons⟩ | ⟨fields, bound, -, hDecons, -⟩
    · exact hBehind false bound hDecons
    · exact hBehind true bound hDecons

end Take

/-! ## Fuel -/

section Fuel

theorem steady_parse (env : Env D K S) (buf : Bytes) :
    Steady (fun fuel => (parse { env with fuel } buf : Call D K S U (Option Nat))) := by
  intro fuel w node w' h
  obtain ⟨next, hSeq⟩ := returns_parse.mp h
  obtain ⟨p, hOk, hr, hw⟩ := returns_parseSeq.mp hSeq
  have hCall : nodeParseSeq env.lib fuel w.heap w.errno buf 0 = .ok p := hOk
  have hSame := nodeParseSeq_stable env.lib w.heap w.errno buf 0 fuel (by simp [hCall])
  exact returns_parse.mpr ⟨next, returns_parseSeq.mpr ⟨p, hSame.trans hOk, hr, hw⟩⟩

theorem steady_verify (env : Env D K S) (name : Option Bytes) (node : Nat) (stat : Bool) :
    Steady (fun fuel => (verifySignature { env with fuel } name node stat : Call D K S U _)) := by
  have hCheck : ∀ {α : Type} (c : Bool) {m n : Nat → Call D K S U α}, Steady m → Steady n →
      Steady fun fuel => check c >>= fun b => if (!b) = true then m fuel else n fuel :=
    fun c _ _ hm hn => (steady_const (check c)).bind fun _ => steady_ite hm hn
  refine (steady_const (decons env node false signedFormat)).bind fun r => ?_
  refine (steady_const get).bind fun w => ?_
  refine hCheck _ (steady_const _) (hCheck _ (steady_const _) ?_)
  refine (steady_const (bstrEccKey env _)).bind fun key => ?_
  cases key with
  | none => exact steady_const _
  | some key =>
    refine hCheck _ (steady_const _) ?_
    dsimp only
    cases env.ltc.eccVerifyHash (boundString w.heap r.2 2 none) (boundString w.heap r.2 3 none) key with
    | none => exact steady_const _
    | some good =>
      refine hCheck _ (steady_const _) ?_
      cases boundString w.heap r.2 4 none with
      | none => exact steady_const _
      | some payload => exact (steady_parse env payload).bind fun result => steady_const _

theorem steady_openSigned (env : Env D K S) {α : Type} (failed : α) (node : Nat) {rest : Nat → Call D K S U α} :
    Steady (fun fuel => openSigned { env with fuel } failed node rest) := by
  refine (steady_const get).bind fun w => (steady_verify env _ node false).bind fun r => ?_
  exact steady_const (continued failed rest r.1 r.2.1)

/-- The fuel is for the parser; nothing behind it takes any. -/
theorem readChallenge_fuel (env : Env D K S) (fuel node : Nat) (limit : UInt32) :
    (readChallenge { env with fuel } node limit : Call D K S U _) =
      openSigned { env with fuel } none node fun inner => takeChallenge env inner limit := by
  have hTake : ∀ inner, (takeChallenge { env with fuel } inner limit : Call D K S U _) =
      takeChallenge env inner limit := fun _ => rfl
  simp only [readChallenge, hTake]

theorem validateHateChallenge_fuel (env : Env D K S) (fuel node : Nat) (expecting : Nonce) :
    (validateHateChallenge { env with fuel } node expecting : Call D K S U _) =
      openSigned { env with fuel } false node fun inner => compareAnswer env inner expecting := by
  have hCompare : ∀ inner, (compareAnswer { env with fuel } inner expecting : Call D K S U _) =
      compareAnswer env inner expecting := fun _ => rfl
  simp only [validateHateChallenge, hCompare]

theorem steady_readChallenge (env : Env D K S) (node : Nat) (limit : UInt32) :
    Steady (fun fuel => (readChallenge { env with fuel } node limit : Call D K S U _)) := by
  simp only [readChallenge_fuel]
  exact steady_openSigned env none node

theorem steady_validate (env : Env D K S) (node : Nat) (expecting : Nonce) :
    Steady (fun fuel => (validateHateChallenge { env with fuel } node expecting : Call D K S U _)) := by
  simp only [validateHateChallenge_fuel]
  exact steady_openSigned env false node

end Fuel

/-! ## The search and the answer -/

section Solve
variable {w : World D K S U}

/-- The loop comes to its end within as many rounds as there are numbers to try. -/
theorem returns_findRight_any (ltc : Ltc K S) (hErrno : w.errno = 0) (hash : Bytes) (left stop : UInt64) {fuel : Nat}
    {start : UInt64} (hFuel : stop.toNat < start.toNat + fuel) (hStart : start.toNat ≤ stop.toNat) :
    ∃ r, Returns (findRight (D := D) (U := U) ltc hash left stop fuel start) w r w := by
  have hClear : w.clear = w := World.clear_of_errno hErrno
  induction fuel generalizing start with
  | zero => omega
  | succ fuel ih =>
    simp only [findRight]
    by_cases hLt : start < stop
    · have hLess : start.toNat < stop.toNat := UInt64.lt_iff_toNat_lt.mp hLt
      have hNext : (start + 1).toNat = start.toNat + 1 := by
        have hBound := stop.toNat_lt
        rw [UInt64.toNat_add]
        exact Nat.mod_eq_of_lt (by simp; omega)
      simp only [hLt, if_true]
      cases ltc.hashMemory (Nonce.raw ⟨left, start⟩) with
      | none =>
        refine ⟨(false, none), returns_bind.mpr ⟨_, _, returns_check.mpr ⟨rfl, rfl⟩, ?_⟩⟩
        exact returns_pure.mpr ⟨rfl, hClear.symm⟩
      | some out =>
        have hRest : stop.toNat < (start + 1).toNat + fuel := by omega
        obtain ⟨r, hr⟩ := ih hRest (by omega)
        by_cases hMatch : (decide (out.length = hash.length) && bisstemeqblk hash out) = true
        · refine ⟨(true, some start), returns_bind.mpr ⟨_, _, returns_check_true rfl hErrno, ?_⟩⟩
          exact returns_ite.mpr (.inr ⟨by simp, returns_ite.mpr (.inl ⟨hMatch, returns_pure.mpr ⟨rfl, rfl⟩⟩)⟩)
        · refine ⟨r, returns_bind.mpr ⟨_, _, returns_check_true rfl hErrno, ?_⟩⟩
          exact returns_ite.mpr (.inr ⟨by simp, returns_ite.mpr (.inr ⟨hMatch, hr⟩)⟩)
    · refine ⟨(true, none), ?_⟩
      simp only [hLt, if_false]
      exact returns_pure.mpr ⟨rfl, rfl⟩

theorem searchEnd_le {level : UInt64} {limit : UInt32} (hLevel : level ≤ limit.toUInt64) :
    (searchEnd level).toNat ≤ limit.toNat * 2 ^ (limit.toNat + 1) := by
  have hLe : level.toNat ≤ limit.toNat := by simpa using UInt64.le_iff_toNat_le.mp hLevel
  have hAmount : (level + 1).toNat % 64 ≤ limit.toNat + 1 := by
    have hSum : (level + 1).toNat ≤ level.toNat + 1 := by
      rw [UInt64.toNat_add]
      exact Nat.mod_le _ _
    have hMod := Nat.mod_le (level + 1).toNat 64
    omega
  rw [searchEnd, UInt64.toNat_shiftLeft, Nat.shiftLeft_eq]
  calc level.toNat * 2 ^ ((level + 1).toNat % 64) % 2 ^ 64 ≤ level.toNat * 2 ^ ((level + 1).toNat % 64) :=
    Nat.mod_le _ _
    _ ≤ limit.toNat * 2 ^ (limit.toNat + 1) := Nat.mul_le_mul hLe (Nat.pow_le_pow_right (by decide) hAmount)

theorem nodeCons_signed_any (heap : Heap D) (payload hash signature : Bytes) (publicKey name : Option Bytes) :
    ∃ r heap', nodeCons heap 0 (signedPieces payload hash signature publicKey name) = .ok (r, heap') ∧
      Extends heap heap' ∧ ∀ a, r = some a → ∃ t, Represents heap' none (some a) t := by
  obtain ⟨root, heap₁, hFull, hTree, -⟩ := nodeCons_message heap
    (signedElems payload hash signature (publicKey.getD []) (name.getD [])) (some signedName)
    (signedElems_makesNew _ _ _ _ _)
  have hAny : ∃ r, nodeCons heap 0 (signedPieces payload hash signature publicKey name) = .ok r :=
    consLoop_missing hFull
  obtain ⟨⟨r, heap'⟩, hCons⟩ := hAny
  refine ⟨r, heap', hCons, nodeCons_extends (by simp [signedPieces, Piece.makesNew]) hCons, ?_⟩
  rintro a rfl
  have hGiven := nodeCons_given hCons
  cases publicKey with
  | none => cases hGiven (.blob none) (by simp [signedPieces])
  | some publicKey =>
    cases name with
    | none => cases hGiven (.blob none) (by simp [signedPieces])
    | some name =>
      obtain ⟨rfl, rfl⟩ : root = a ∧ heap₁ = heap' := by simpa using hFull.symm.trans hCons
      exact ⟨_, hTree⟩

/-- Whatever the library does, signing comes to a node or to NULL. -/
theorem yields_signNode (env : Env D K S) (signHash : SignHash K) (hErrno : w.errno = 0) {t : Document D}
    (hFits : Fits t.tree)
    {input : Nat} (hTree : w.Holds input t.tree) (key : K) (name : Option Bytes) :
    Yields (signNode env signHash key name (some input)) w fun r w' =>
      w'.errno = 0 ∧ Extends w.heap w'.heap ∧ ∀ a, r = some a → ∃ u, w'.Holds a u := by
  have hClear : w.clear = w := World.clear_of_errno hErrno
  have hNull : w.errno = 0 ∧ Extends w.heap w.heap ∧ ∀ a, (none : Option Nat) = some a → ∃ u, w.Holds a u :=
    ⟨hErrno, Extends.refl _, by simp⟩
  refine (returns_bstr_document hFits hTree).then (yields_checkPass rfl hErrno ?_)
  refine (returns_cryptHash.mpr ⟨rfl, hClear.symm⟩).then ?_
  rw [if_pos hErrno]
  cases env.ltc.hashMemory t.encode with
  | none => exact (returns_check.mpr ⟨rfl, hClear.symm⟩).then (yields_pure hNull)
  | some hash =>
    refine yields_checkPass rfl hErrno ((returns_get.mpr ⟨rfl, rfl⟩).then ?_)
    cases signHash w.random hash key with
    | none => exact (returns_check.mpr ⟨rfl, hClear.symm⟩).then (yields_pure hNull)
    | some out =>
      obtain ⟨signature, random⟩ := out
      obtain ⟨r, heap, hCons, hExt, hRoot⟩ := nodeCons_signed_any w.heap t.encode hash signature
        (env.ltc.eccExport .pkPublic key) name
      let w₁ : World D K S U := { w with random }
      have hClear₁ : w₁.clear = w₁ := World.clear_of_errno hErrno
      refine (returns_set.mpr rfl : Returns (set w₁) w () w₁).then (yields_checkPass rfl hErrno ?_)
      refine (returns_exportKey.mpr ⟨rfl, hClear₁.symm⟩).then ?_
      rw [if_pos (show w₁.errno = 0 from hErrno)]
      have hReturns : Returns (cons (signedPieces t.encode hash signature (env.ltc.eccExport .pkPublic key) name)) w₁ r
          (w₁.grown heap) := by
        refine returns_cons.mpr ⟨heap, ?_, ?_⟩
        · rw [show w₁.errno = 0 from hErrno]
          exact hCons
        · rw [show w₁.errno = 0 from hErrno, ite_self, World.grown, ← hErrno]
      refine hReturns.then (yields_checkElse (fun _ => yields_pure ?_) fun _ => yields_pure ?_)
      · exact ⟨rfl, hExt, by simp⟩
      · exact ⟨rfl, hExt, hRoot⟩

theorem yields_sendAnswer (env : Env D K S) (signHash : SignHash K) (hErrno : w.errno = 0) (left right : UInt64) :
    Yields (sendAnswer env signHash left right) w fun r w' => ∀ a, r = some a → ∃ u, w'.Holds a u := by
  obtain ⟨msg, heap, hCons, hMsg, -⟩ := returns_cons_message hErrno (answerElems left right) (some answerName)
    (by simp [answerElems, Elems.format, Leaf.piece, Piece.makesNew])
  have hZero : (w.grown heap).errno = 0 := hErrno
  refine Returns.then hCons (yields_checkPass rfl hZero ((returns_get.mpr ⟨rfl, rfl⟩).then ?_))
  refine (yields_signNode env signHash hZero (fits_answer left right) hMsg _ _).bind ?_
  rintro sign w₁ ⟨hErrno₁, hExt, hSign⟩
  refine yields_checkElse (fun _ => ?_) fun _ => ?_
  · have hKept : Represents w₁.heap none (some msg) ((answerElems left right).tree (some answerName)) :=
      Represents.extend hMsg hExt
    have hDestroy : Returns (destroy (some msg)) w₁.clear () w₁.clear := by
      refine returns_destroy.mpr ⟨?_, rfl⟩
      exact (Stackish.Represents.releasable_iff hKept).mpr
        (by simp [answerElems, Elems.tree, Elems.kids, Forest.height, maxTreeDeep])
    exact hDestroy.then (yields_pure (by simp))
  · refine yields_pure ?_
    rw [World.clear_of_errno hErrno₁]
    exact hSign

theorem steady_findRight (ltc : Ltc K S) (hash : Bytes) (left stop start : UInt64) :
    Steady (fun fuel => (findRight ltc hash left stop fuel start : Call D K S U _)) := by
  intro fuel
  induction fuel generalizing start with
  | zero =>
    intro w r w' h
    exact (returns_throw.mp h).elim
  | succ fuel ih =>
    intro w r w' h
    simp only [findRight] at h ⊢
    rcases returns_ite.mp h with ⟨hLt, h⟩ | ⟨hLt, h⟩
    · refine returns_ite.mpr (.inl ⟨hLt, ?_⟩)
      cases hHash : ltc.hashMemory (Nonce.raw ⟨left, start⟩) with
      | none =>
        rw [hHash] at h
        exact h
      | some out =>
        rw [hHash] at h
        obtain ⟨b, w₁, hCheck, h⟩ := returns_bind.mp h
        refine returns_bind.mpr ⟨b, w₁, hCheck, ?_⟩
        rcases returns_ite.mp h with ⟨hb, h⟩ | ⟨hb, h⟩
        · exact returns_ite.mpr (.inl ⟨hb, h⟩)
        refine returns_ite.mpr (.inr ⟨hb, ?_⟩)
        rcases returns_ite.mp h with ⟨hMatch, h⟩ | ⟨hMatch, h⟩
        · exact returns_ite.mpr (.inl ⟨hMatch, h⟩)
        · exact returns_ite.mpr (.inr ⟨hMatch, ih (start + 1) h⟩)
    · exact returns_ite.mpr (.inr ⟨hLt, h⟩)

/-- Every challenge that is taken on comes to an answer or to NULL. -/
theorem settles_solve (env : Env D K S) (signHash : SignHash K) (hErrno : w.errno = 0) (hash : Bytes)
    (left level : UInt64) :
    ∃ r w', Settles (fun fuel => solveChallenge { env with fuel } signHash hash left level) w r w' ∧
      ∀ a, r = some a → ∃ u, w'.Holds a u := by
  have hSteady : Steady (fun fuel => (solveChallenge { env with fuel } signHash hash left level : Call D K S U _)) := by
    refine (steady_findRight env.ltc hash left (searchEnd level) 0).bind fun r => ?_
    obtain ⟨rc, right⟩ := r
    refine steady_ite (steady_const _) ?_
    cases right with
    | none => exact steady_const _
    | some right => exact steady_const (sendAnswer env signHash left right)
  have hSearch : ∃ r, Returns (findRight env.ltc hash left (searchEnd level) ((searchEnd level).toNat + 1) 0) w r w :=
    returns_findRight_any env.ltc hErrno hash left (searchEnd level) (by simp) (by simp)
  obtain ⟨⟨rc, right⟩, hFind⟩ := hSearch
  have hYields : Yields (solveChallenge { env with fuel := (searchEnd level).toNat + 1 } signHash hash left level) w
      fun r w' => ∀ a, r = some a → ∃ u, w'.Holds a u := by
    refine Returns.then hFind (yields_ite (fun _ => yields_pure (by simp)) fun _ => ?_)
    cases right with
    | none => exact (returns_check.mpr ⟨rfl, rfl⟩).then (yields_pure (by simp))
    | some right => exact yields_sendAnswer _ signHash hErrno left right
  obtain ⟨r, w', hReturns, hValid⟩ := hYields
  exact ⟨r, w', hSteady.settles hReturns, hValid⟩

end Solve

/-! ## The two calls -/

/-- `CryptState_answer_hate_challenge` comes to NULL or to a node, no shift is too wide, and the loop goes
round at most `limit << (limit + 1)` times. -/
structure HandlesChallenge (env : Env D K S) (signHash : SignHash K) (w : World D K S U) (node : Nat) (limit : UInt32) :
    Prop where
  returns : ∃ r w', Settles (fun fuel => answerHateChallenge { env with fuel } signHash node limit) w r w' ∧
    ∀ a, r = some a → ∃ t, w'.Holds a t
  shifts : ∀ fuel r w', Returns (readChallenge { env with fuel } node limit) w r w' → Shiftable r
  bounded : ∀ fuel hash left level w', Returns (readChallenge { env with fuel } node limit) w
    (some (hash, left, level)) w' → ∀ n, limit.toNat * 2 ^ (limit.toNat + 1) < n →
      ∃ found, Returns (findRight env.ltc hash left (searchEnd level) n 0) w' found w'

/-- `CryptState_validate_hate_challenge` comes to 0 or 1. -/
def HandlesAnswer (env : Env D K S) (w : World D K S U) (node : Nat) (expecting : Nonce) : Prop :=
  ∃ r w', Settles (fun fuel => validateHateChallenge { env with fuel } node expecting) w r w'

section Calls
variable {w : World D K S U} {node : Nat} {t : Stackish.Tree D}

theorem takeChallenge_some {env : Env D K S} {inner : Nat} {limit : UInt32} {hash : Bytes} {left level : UInt64}
    {w' : World D K S U} (h : Returns (takeChallenge env inner limit) w (some (hash, left, level)) w') :
    level ≤ limit.toUInt64 ∧ w'.errno = 0 := by
  obtain ⟨⟨rc, bound⟩, w₁, hDecons, h₁⟩ := returns_bind.mp h
  rcases returns_checkElse.mp h₁ with ⟨-, h₂⟩ | ⟨-, h₂⟩
  · cases (returns_pure.mp h₂).1
  obtain ⟨v, w₂, hGet, h₃⟩ := returns_bind.mp h₂
  rcases returns_checkElse.mp h₃ with ⟨-, h₄⟩ | ⟨-, h₄⟩
  · cases (returns_pure.mp h₄).1
  rcases returns_checkElse.mp h₄ with ⟨-, h₅⟩ | ⟨hLevel, h₅⟩
  · cases (returns_pure.mp h₅).1
  split at h₅
  · obtain ⟨b, w₃, hCheck, h₆⟩ := returns_bind.mp h₅
    cases (returns_pure.mp h₆).1
  · rcases returns_checkElse.mp h₅ with ⟨-, h₆⟩ | ⟨-, h₆⟩
    · cases (returns_pure.mp h₆).1
    obtain ⟨hSome, rfl⟩ := returns_pure.mp h₆
    cases hSome
    simp only [Bool.and_eq_true, decide_eq_true_eq] at hLevel
    exact ⟨hLevel.1, rfl⟩

theorem readChallenge_some {env : Env D K S} {limit : UInt32} {hash : Bytes} {left level : UInt64}
    {w' : World D K S U} (h : Returns (readChallenge env node limit) w (some (hash, left, level)) w') :
    level ≤ limit.toUInt64 ∧ w'.errno = 0 := by
  obtain ⟨v, w₁, hGet, h₁⟩ := returns_bind.mp h
  obtain ⟨⟨inner, stat, key⟩, w₂, hVerify, h₂⟩ := returns_bind.mp h₁
  rcases returns_checkElse.mp h₂ with ⟨-, h₃⟩ | ⟨-, h₃⟩
  · cases (returns_pure.mp h₃).1
  cases inner with
  | none => exact (returns_throw.mp h₃).elim
  | some inner => exact takeChallenge_some h₃

/-- Behind the shift nothing can go wrong. -/
theorem handlesChallenge_iff_reads (env : Env D K S) (signHash : SignHash K) {limit : UInt32} (hLimit : limit ≠ 0) :
    HandlesChallenge env signHash w node limit ↔
      ∃ fuel, Yields (readChallenge { env with fuel } node limit) w fun r _ => Shiftable r := by
  constructor
  · rintro ⟨⟨r, w', ⟨n, hSettles⟩, -⟩, hShifts, -⟩
    have hRun := hSettles n (Nat.le_refl n)
    simp only [answerHateChallenge, if_neg hLimit] at hRun
    obtain ⟨read, w₁, hRead, -⟩ := returns_bind.mp hRun
    exact ⟨n, read, w₁, hRead, hShifts n read w₁ hRead⟩
  · rintro ⟨n, read, w₁, hRead, hShift⟩
    have hSteady := steady_readChallenge (D := D) (U := U) env node limit
    have hSettles := hSteady.settles hRead
    have hSame : ∀ fuel r w', Returns (readChallenge { env with fuel } node limit) w r w' → r = read ∧ w' = w₁ := by
      intro fuel r w' h
      exact (hSteady.settles h).unique hSettles
    refine ⟨?_, ?_, ?_⟩
    · cases read with
      | none =>
        refine ⟨none, w₁, ?_, by simp⟩
        simp only [answerHateChallenge, if_neg hLimit]
        exact hSettles.bind settles_pure
      | some read =>
        obtain ⟨hash, left, level⟩ := read
        obtain ⟨r, w₂, hSolve, hValid⟩ := settles_solve env signHash (readChallenge_some hRead).2 hash left level
        exact ⟨r, w₂, settles_taken hLimit hSettles hSolve, hValid⟩
    · intro fuel r w' h
      obtain ⟨rfl, -⟩ := hSame fuel r w' h
      exact hShift
    · intro fuel hash left level w' h n hn
      obtain ⟨hLevel, hErrno⟩ := readChallenge_some h
      have hEnd := searchEnd_le hLevel
      exact returns_findRight_any env.ltc hErrno hash left (searchEnd level) (by simp; omega) (by simp)

end Calls

section Safe
variable {w : World D K S U} {node : Nat} {t : Stackish.Tree D}

theorem yields_readChallenge_iff (env : Env D K S) (hTree : w.Holds node t)
    (hSized : ∀ parts payload, signedView t = some parts → parts.payload = some payload → payload.length < 2 ^ 31)
    (limit : UInt32) :
    (∃ fuel, Yields (readChallenge { env with fuel } node limit) w fun r _ => Shiftable r) ↔
      (w.errno = 0 → SafeMessage env w.state.them.name t (SafeChallenge env.lib limit)) := by
  have hNone : ∀ w' : World D K S U, (fun r _ => Shiftable r) none w' := by
    rintro w' hash left level ⟨⟩
  by_cases hErrno : w.errno = 0
  · have hRest : ∀ heap inner t', Extends w.heap heap → (w.grown heap).Holds inner t' →
        (Yields (takeChallenge env inner limit) (w.grown heap) (fun r _ => Shiftable r) ↔
          SafeChallenge env.lib limit t') :=
      fun heap inner t' _ hInner => yields_takeChallenge_iff env (w := w.grown heap) hErrno hInner limit
    simp only [forall_prop_of_true hErrno, readChallenge_fuel]
    exact yields_openSigned_iff env hErrno hTree hSized hNone hRest
  · refine iff_of_true ⟨0, yields_openSigned_stale _ hErrno hTree hNone⟩ ?_
    intro hZero
    exact absurd hZero hErrno

theorem handlesAnswer_iff (env : Env D K S) (hTree : w.Holds node t)
    (hSized : ∀ parts payload, signedView t = some parts → parts.payload = some payload → payload.length < 2 ^ 31)
    (expecting : Nonce) :
    HandlesAnswer env w node expecting ↔
      (w.errno = 0 → SafeMessage env w.state.them.name t (Loggable env.lib answerFormat)) := by
  have hYields : HandlesAnswer env w node expecting ↔
      ∃ fuel, Yields (validateHateChallenge { env with fuel } node expecting) w fun _ _ => True := by
    constructor
    · rintro ⟨r, w', n, hSettles⟩
      exact ⟨n, r, w', hSettles n (Nat.le_refl n), trivial⟩
    · rintro ⟨n, r, w', hReturns, -⟩
      exact ⟨r, w', (steady_validate env node expecting).settles hReturns⟩
  rw [hYields]
  by_cases hErrno : w.errno = 0
  · have hRest : ∀ heap inner t', Extends w.heap heap → (w.grown heap).Holds inner t' →
        (Yields (compareAnswer env inner expecting) (w.grown heap) (fun _ _ => True) ↔
          Loggable env.lib answerFormat t') :=
      fun heap inner t' _ hInner => yields_compareAnswer_iff env (w := w.grown heap) hErrno hInner expecting
    simp only [forall_prop_of_true hErrno, validateHateChallenge_fuel]
    exact yields_openSigned_iff env hErrno hTree hSized (fun _ => trivial) hRest
  · refine iff_of_true ⟨0, yields_openSigned_stale _ hErrno hTree fun _ => trivial⟩ ?_
    intro hZero
    exact absurd hZero hErrno

end Safe

/-- A hate message is handled exactly when it is safe. -/
theorem hateMessages_handled_iff (env : Env D K S) (signHash : SignHash K) {w : World D K S U} {node : Nat}
    {t : Stackish.Tree D} (hTree : w.Holds node t)
    (hSized : ∀ parts payload, signedView t = some parts → parts.payload = some payload → payload.length < 2 ^ 31) :
    (∀ limit : UInt32, 1 ≤ limit.toNat → limit.toNat ≤ 64 → (HandlesChallenge env signHash w node limit ↔
      (w.errno = 0 → SafeMessage env w.state.them.name t (SafeChallenge env.lib limit)))) ∧
    ∀ expecting, HandlesAnswer env w node expecting ↔
      (w.errno = 0 → SafeMessage env w.state.them.name t (Loggable env.lib answerFormat)) := by
  refine ⟨fun limit hLow _ => ?_, handlesAnswer_iff env hTree hSized⟩
  have hLimit : limit ≠ 0 := by
    rintro rfl
    exact absurd hLow (by decide)
  rw [handlesChallenge_iff_reads env signHash hLimit]
  exact yields_readChallenge_iff env hTree hSized limit

/-! ## Messages of a known peer -/

/-- A message that `a` signed with the key `7`. -/
def signedMessage (payload : Bytes) : Stackish.Tree Unit :=
  (signedElems payload [1] [1] [7] [97]).tree (some signedName)

/-- `b`, who knows `a`. -/
def receiver (heap : Heap Unit) : World Unit Unit Unit Unit := (knownWorld [98] [97] []).grown heap

theorem exists_signedMessage (payload : Bytes) : ∃ heap node, (receiver heap).Holds node (signedMessage payload) := by
  obtain ⟨root, heap, -, hTree, -⟩ := nodeCons_message (D := Unit) [] (signedElems payload [1] [1] [7] [97])
    (some signedName) (signedElems_makesNew _ _ _ _ _)
  exact ⟨heap, root, hTree⟩

theorem signedView_message (payload : Bytes) :
    signedView (signedMessage payload) = some ⟨some [97], some [7], some [1], some [1], some payload⟩ := rfl

/-- A valid signature is not enough: the payload has to be a good tree. -/
theorem safeMessage_signedMessage {payload : Bytes} {good : Stackish.Tree Unit → Prop} :
    SafeMessage exactEnv (some [97]) (signedMessage payload) good ↔ ParsesWell exactEnv.lib payload False good := by
  have hGood : (fun t' => true = true → good t') = good := by simp
  have hFalse : (true = false) = False := by simp
  constructor
  · rintro ⟨-, h⟩
    have hName : biseq (some [97]) (some [97]) ≠ 0 := by decide
    obtain ⟨blob, hBlob, hKey⟩ := h _ (signedView_message payload) hName
    obtain rfl : [7] = blob := Option.some.inj hBlob
    obtain ⟨payload', hPayload, hParses⟩ := hKey () rfl true rfl
    obtain rfl : payload = payload' := Option.some.inj hPayload
    rwa [hGood, hFalse] at hParses
  · intro h
    have hNone : blames signedFormat (signedMessage payload) = none := rfl
    refine ⟨fun u hu => ?_, ?_⟩
    · rw [hNone] at hu
      cases hu
    · rintro parts hParts -
      obtain rfl := Option.some.inj ((signedView_message payload).symm.trans hParts)
      refine ⟨[7], rfl, fun key _ stat hStat => ⟨payload, rfl, ?_⟩⟩
      obtain rfl : true = stat := Option.some.inj hStat
      rwa [hGood, hFalse]

/-- The payload `x` is no tree, and NULL goes to `Node_decons`; the level 63 is shifted by 64. -/
theorem not_handles_signedMessages :
    (∃ heap node, (receiver heap).Holds node (signedMessage [120]) ∧
      (∀ limit : UInt32, 1 ≤ limit.toNat → limit.toNat ≤ 64 →
        ¬ HandlesChallenge exactEnv exactSign (receiver heap) node limit) ∧
      ∀ expecting, ¬ HandlesAnswer exactEnv (receiver heap) node expecting) ∧
    ∃ heap node, (receiver heap).Holds node (signedMessage (challengeDocument 63 0 [1] : Document Unit).encode) ∧
      ¬ HandlesChallenge exactEnv exactSign (receiver heap) node 64 := by
  constructor
  · obtain ⟨heap, node, hTree⟩ := exists_signedMessage [120]
    have hSized : ∀ parts payload, signedView (signedMessage [120]) = some parts → parts.payload = some payload →
        payload.length < 2 ^ 31 := by
      rintro parts payload ⟨⟩ ⟨⟩
      decide
    have hUnsafe : ∀ good, ¬ SafeMessage exactEnv (receiver heap).state.them.name (signedMessage [120]) good := by
      intro good h
      rcases safeMessage_signedMessage.mp h with ⟨-, hFalse⟩ | ⟨hEnds, -⟩
      · exact hFalse
      · cases hEnds
    refine ⟨heap, node, hTree, fun limit hLow _ h => ?_, fun expecting h => ?_⟩
    · have hLimit : limit ≠ 0 := by
        rintro rfl
        exact absurd hLow (by decide)
      have hReads := (handlesChallenge_iff_reads exactEnv exactSign hLimit).mp h
      exact hUnsafe _ ((yields_readChallenge_iff exactEnv hTree hSized limit).mp hReads rfl)
    · exact hUnsafe _ ((handlesAnswer_iff exactEnv hTree hSized expecting).mp h rfl)
  · obtain ⟨heap, node, hTree⟩ := exists_signedMessage (challengeDocument 63 0 [1] : Document Unit).encode
    refine ⟨heap, node, hTree, fun h => ?_⟩
    have hSigned : SignedBy exactEnv exactSign () [97] (challengeDocument 63 0 [1]) (receiver heap).heap node :=
      ⟨[7], [], [], [1], [1], rfl, rfl, hTree⟩
    obtain ⟨heap', n, hRead⟩ := settles_readChallenge (v := receiver heap) exactSign_sound rfl rfl (by decide) hSigned
      (by decide : (63 : UInt64) ≤ (64 : UInt32).toUInt64)
    exact absurd (h.shifts n _ _ (hRead n (Nat.le_refl n)) _ _ _ rfl) (by decide)

theorem parsesWell_document (lib : DoubleLib D) {t : Document D} (hFits : Fits t.tree) {absent : Prop}
    {good : Stackish.Tree D → Prop} (hGood : good t.tree) : ParsesWell lib t.encode absent good := by
  obtain ⟨stop, hRead⟩ := readsTo_encode lib hFits
  exact .inr ⟨endsInSpace_newline _, _, _, hRead, .inr ⟨t.tree_ne_nil, hGood⟩⟩

theorem handles_challenge_one : ∃ heap node,
    (receiver heap).Holds node (signedMessage (challengeDocument 1 0 [1] : Document Unit).encode) ∧
      HandlesChallenge exactEnv exactSign (receiver heap) node 1 ∧
      HandlesAnswer exactEnv (receiver heap) node ⟨0, 0⟩ := by
  have hFits : Fits (challengeDocument 1 0 [1] : Document Unit).tree := fits_challenge 1 0 (by decide)
  obtain ⟨heap, node, hTree⟩ := exists_signedMessage (challengeDocument 1 0 [1] : Document Unit).encode
  have hIff := hateMessages_handled_iff exactEnv exactSign hTree (by
    rintro parts payload hParts hPayload
    obtain rfl := Option.some.inj ((signedView_message _).symm.trans hParts)
    obtain rfl := Option.some.inj hPayload
    exact hFits.length_encode)
  refine ⟨heap, node, hTree, (hIff.1 1 (by decide) (by decide)).mpr fun _ => ?_, (hIff.2 _).mpr fun _ => ?_⟩
  · refine safeMessage_signedMessage.mpr (parsesWell_document _ hFits ⟨fun u hu => ?_, ?_⟩)
    · cases hu
    · rintro hash left level ⟨⟩ -
      decide
  · refine safeMessage_signedMessage.mpr (parsesWell_document _ hFits fun u hu => ?_)
    cases hu
    exact ⟨_, rfl⟩

end Utu.Protocol
