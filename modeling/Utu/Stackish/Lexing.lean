import Utu.Stackish.Scan
import Utu.Stackish.Track

/-!
# The scanner reads the tokens of the lexer

From a position between two tokens the scanner does what the lexer says about
the text there: it runs off the end inside the last token, enters the error
state, applies one token to the document and stands behind it, or leaves its
loop at the colon of a blob length.
-/

namespace Utu.Stackish
open LinkedForest
set_option autoImplicit false

variable {D : Type}

/-- The scanner between two tokens. -/
structure Ready (h₀ : Heap D) (d : Doc D) (ps : Parser D) : Prop where
  cs : ps.cs = 10
  more : ps.more = 0
  tracked : Tracked h₀ ps.store d

/-- The scanner has left its loop and the caller has no reason to enter it again. -/
structure Settled (ps : Parser D) : Prop where
  cs : ps.cs ≠ 0
  more : ps.more = 0 ∨ ps.cs = 10

section Spec
variable (lib : DoubleLib D) (buf : Bytes) (h₀ : Heap D)

/-- A token read and applied: the scanner stands at `next`, or has stopped at `stop`. -/
def AfterToken (r : Run (Nat × Parser D)) (t : Token D) (next stop : Nat) (d : Doc D) : Prop :=
  match applyToken t d with
  | .next e => ∃ ps, Ready h₀ e ps ∧ r = scan lib buf (buf.drop next) next ps
  | .refused => ∃ ps, r = .ok (stop, ps) ∧ Settled ps ∧ Tracked h₀ ps.store d
  | .closed tree => ∃ ps, r = .ok (stop, ps) ∧ Settled ps ∧ ps.store.errno = 0 ∧
      Extends h₀ ps.store.heap ∧ Represents ps.store.heap none ps.store.root tree
  | .crashed => r = .error .nullPointer

/-- A blob length read: an empty blob is read on, any other one is left to the caller. -/
def AfterLength (r : Run (Nat × Parser D)) (n start : Nat) (d : Doc D) : Prop :=
  if sizeMod ≤ n then
    ∃ q ps, r = .ok (q, ps) ∧ ps.store.errno ≠ 0 ∧ Tracked h₀ ps.store.fail d
  else ∃ ps, ps.cs = 5 ∧ ps.mark = start ∧ ps.more = n ∧ Tracked h₀ ps.store d ∧
    r = if n = 0 then scan lib buf (buf.drop start) start ps else .ok (start - 1, ps)

def AfterLex (r : Run (Nat × Parser D)) (p : Nat) (d : Doc D) : Lexed D → Prop
  | .done => ∃ ps, r = .ok (buf.length, ps) ∧ Settled ps ∧ Tracked h₀ ps.store d
  | .bad => ∃ q ps, r = .ok (q, ps) ∧ ps.cs = 0 ∧ Tracked h₀ ps.store d
  | .token t len stop => AfterToken lib buf h₀ r t (p + len) (p + stop) d
  | .blobHead n len => AfterLength lib buf h₀ r n (p + len) d

theorem AfterLex.shift {lib : DoubleLib D} {buf : Bytes} {h₀ : Heap D} {r : Run (Nat × Parser D)}
    {p : Nat} {d : Doc D} {l : Lexed D} (h : AfterLex lib buf h₀ r (p + 1) d l) :
    AfterLex lib buf h₀ r p d (l.shift 1) := by
  cases l with
  | done | bad => exact h
  | token t len stop => simpa [AfterLex, Lexed.shift, Nat.add_assoc] using h
  | blobHead n len => simpa [AfterLex, Lexed.shift, Nat.add_assoc] using h

/-- Running `act` at `p` applies the token `t`. Only the blob action finds a pending length. -/
def Acts (act : Action) (mark p : Nat) (t : Token D) (d : Doc D) : Prop :=
  ∀ ps : Parser D, ps.mark = mark → (ps.more = 0 ∨ act = .blob) → Tracked h₀ ps.store d →
    match applyToken t d with
    | .next e => ∃ ps', runAction lib buf p ps act = .ok (false, ps') ∧ ps'.more = 0 ∧
        Tracked h₀ ps'.store e
    | .refused => ∃ ps', runAction lib buf p ps act = .ok (true, ps') ∧ ps'.more = ps.more ∧
        Tracked h₀ ps'.store d
    | .closed tree => ∃ ps', runAction lib buf p ps act = .ok (true, ps') ∧ ps'.more = ps.more ∧
        ps'.store.errno = 0 ∧ Extends h₀ ps'.store.heap ∧
        Represents ps'.store.heap none ps'.store.root tree
    | .crashed => runAction lib buf p ps act = .error .nullPointer

end Spec

section Actions
variable {lib : DoubleLib D} {buf : Bytes} {h₀ : Heap D} {d : Doc D} {mark p : Nat}

theorem lenFrom_eq (h : mark ≤ p) (hp : p < sizeMod) : lenFrom mark p = p - mark := by
  simp only [lenFrom, sizeMod] at *
  omega

/-- The slice from the mark, as `blk2bstr` copies it. -/
theorem blk2bstr_slice (h : mark ≤ p) (hp : p < 2 ^ 31) :
    blk2bstr (buf.drop mark) (toInt (lenFrom mark p)) = some ((buf.drop mark).take (p - mark)) := by
  rw [lenFrom_eq h (by simp only [sizeMod]; omega), toInt_small (by omega)]
  simp [blk2bstr]

/-- A slice that is known as a text, as `blk2bstr` copies it. -/
theorem blk2bstr_text {w rest : Bytes} (hSlice : buf.drop mark = w ++ rest)
    (hp : p = mark + w.length) (hSize : p < 2 ^ 31) :
    blk2bstr (buf.drop mark) (toInt (lenFrom mark p)) = some w := by
  rw [blk2bstr_slice (by omega) hSize, hSlice, hp, Nat.add_sub_cancel_left, List.take_left]

/-- Pushing a value that the slice may or may not convert to. -/
theorem push_spec (type : NodeType) (value : Option (Value D))
    (hFrom : ∀ (st : Store D) (parent : Nat), st.errno = 0 →
      nodeFromStr lib st parent type (buf.drop mark) (lenFrom mark p) =
        match value with
        | some v => (true, { st with heap := nodeCreate st.heap (some parent) v })
        | none => (false, st))
    {ps : Parser D} (hMark : ps.mark = mark) (hTracked : Tracked h₀ ps.store d) :
    match value, d with
    | some v, kids :: outer => ∃ ps', push lib buf p type ps = .ok (true, ps') ∧ ps'.more = ps.more ∧
        Tracked h₀ ps'.store (.node ⟨none, v⟩ .nil kids :: outer)
    | _, _ => push lib buf p type ps = .ok (false, ps) := by
  subst hMark
  cases d with
  | nil =>
    simp only [push]
    rw [hTracked.handlePush_empty]
    cases value <;> rfl
  | cons kids outer =>
    obtain ⟨current, hCurrent, hPush⟩ := hTracked.handlePush_open lib
    simp only [push]
    rw [hPush, hFrom _ _ hTracked.errno_eq]
    cases value with
    | none => rfl
    | some v => exact ⟨_, rfl, rfl, hTracked.create_leaf hCurrent v⟩

theorem acts_push (type : NodeType) (value : Option (Value D)) {act : Action} {t : Token D}
    (hFrom : ∀ (st : Store D) (parent : Nat), st.errno = 0 →
      nodeFromStr lib st parent type (buf.drop mark) (lenFrom mark p) =
        match value with
        | some v => (true, { st with heap := nodeCreate st.heap (some parent) v })
        | none => (false, st))
    (hAct : ∀ ps, runAction lib buf p ps act =
      (push lib buf p type ps >>= fun r => pure (!r.1, r.2))) (hBlob : act ≠ .blob)
    (hToken : ∀ d, applyToken t d = (value.map (pushLeaf · d)).getD .refused) :
    Acts lib buf h₀ act mark p t d := by
  intro ps hMark hMore hTracked
  have hPush := push_spec type value hFrom hMark hTracked
  rw [hToken]
  simp only [hAct]
  cases value with
  | none =>
    rw [Outcome.bind_of_ok hPush]
    exact ⟨ps, rfl, rfl, hTracked⟩
  | some v =>
    cases d with
    | nil =>
      rw [Outcome.bind_of_ok hPush]
      exact ⟨ps, rfl, rfl, hTracked⟩
    | cons kids outer =>
      obtain ⟨ps', hRun, hMore', hTracked'⟩ := hPush
      rw [Outcome.bind_of_ok hRun]
      exact ⟨ps', rfl, hMore'.trans (hMore.resolve_right hBlob), hTracked'⟩

theorem acts_number {digits rest : Bytes} (hSlice : buf.drop mark = digits ++ rest)
    (hNe : digits ≠ []) (hAll : ∀ c ∈ digits, Decimal.isDigit c = true)
    (hStop : ∀ c, rest.head? = some c → Decimal.isDigit c = false)
    (hp : p = mark + digits.length) (hSize : p < sizeMod) :
    Acts lib buf h₀ .number mark p (.number (numberOf digits)) d := by
  have hLen : lenFrom mark p = digits.length := by
    rw [lenFrom_eq (by omega) hSize]
    omega
  refine acts_push .number ((numberOf digits).map .number) ?_ (fun _ => rfl) (by decide) ?_
  · intro st parent hErrno
    simp only [nodeFromStr]
    rw [hSlice, strtoul_digits hNe hAll hStop, hLen]
    by_cases hBig : sizeMod ≤ Decimal.value digits
    · simp only [numberOf, hBig, if_true, Option.map_none, ERANGE]
      cases st
      cases hErrno
      rfl
    · simp [numberOf, hBig, hErrno]
  · intro d
    cases h : numberOf digits <;> rfl

theorem acts_float {len : Nat} (hp : p = mark + len) (hSize : p < sizeMod) :
    Acts lib buf h₀ .float mark p (.float (floatOf lib (buf.drop mark) len)) d := by
  have hLen : lenFrom mark p = len := by
    rw [lenFrom_eq (by omega) hSize]
    omega
  refine acts_push .float ((floatOf lib (buf.drop mark) len).map .float) ?_ (fun _ => rfl)
    (by decide) ?_
  · intro st parent hErrno
    rcases hLib : lib.strtod (buf.drop mark) with ⟨x, stop, range⟩
    simp only [nodeFromStr, hLen, floatOf, hLib]
    cases st
    cases hErrno
    cases range <;> by_cases hStop : stop = len <;> simp [hStop, ERANGE, Store.fail]
  · intro d
    cases h : floatOf lib (buf.drop mark) len <;> rfl

theorem acts_string {s rest : Bytes} (hSlice : buf.drop mark = s ++ rest)
    (hp : p = mark + s.length) (hSize : p < 2 ^ 31) :
    Acts lib buf h₀ .string mark p (.string s) d := by
  refine acts_push .string (some (.string (some s))) ?_ (fun _ => rfl) (by decide) (fun _ => rfl)
  intro st parent _
  simp only [nodeFromStr, blk2bstr_text hSlice hp hSize]

theorem acts_start : Acts lib buf h₀ .start mark p .start d :=
  fun _ _ hMore hTracked =>
    ⟨_, rfl, hMore.resolve_right (by decide), hTracked.handleStart_tracked⟩

/-- Closing a group by either of the two actions that do. -/
theorem acts_close (start : Option Bytes) (length : Nat) {act : Action} {t : Token D}
    {name : Option Bytes} (hName : wordName start length = .ok name)
    (hAct : ∀ ps : Parser D, ps.mark = mark → runAction lib buf p ps act =
      (handleWord ps.store start length >>= fun r =>
        pure (r.1 != 0, { ps with store := r.2 })))
    (hBlob : act ≠ .blob) (hToken : applyToken t d = closeGroup name d) : Acts lib buf h₀ act mark p t d := by
  intro ps hMark hMore hTracked
  rw [hToken]
  simp only [hAct ps hMark]
  cases d with
  | nil =>
    rw [Outcome.bind_of_ok (hTracked.handleWord_empty start length)]
    exact ⟨_, rfl, rfl, hTracked⟩
  | cons kids outer =>
    have hWord := hTracked.handleWord_open hName
    cases outer with
    | nil =>
      obtain ⟨st', hRun, hErrno, hKept, hTree⟩ := hWord
      rw [Outcome.bind_of_ok hRun]
      exact ⟨_, rfl, rfl, hErrno, hKept, hTree⟩
    | cons siblings outer =>
      obtain ⟨st', hRun, hTracked'⟩ := hWord
      rw [Outcome.bind_of_ok hRun]
      exact ⟨_, rfl, hMore.resolve_right hBlob, hTracked'⟩

theorem acts_group : Acts lib buf h₀ .group mark p .group d :=
  acts_close none 0 rfl (fun _ _ => rfl) (by decide) rfl

theorem wordName_some {start name : Bytes} {length : Nat}
    (h : blk2bstr start (toInt length) = some name) :
    wordName (some start) length = .ok (some name) := by
  simp only [wordName, h]
  rfl

theorem acts_word {w rest : Bytes} (hSlice : buf.drop mark = w ++ rest)
    (hp : p = mark + w.length) (hSize : p < 2 ^ 31) :
    Acts lib buf h₀ .word mark p (.word w) d := by
  refine acts_close _ _ (wordName_some (blk2bstr_text hSlice hp hSize)) ?_ (by decide) rfl
  rintro ps rfl
  simp only [runAction]

theorem acts_attrib {w rest : Bytes} (hSlice : buf.drop mark = w ++ rest)
    (hp : p = mark + w.length) (hSize : p < 2 ^ 31) :
    Acts lib buf h₀ .attrib mark p (.attrib w) d := by
  have hName := blk2bstr_text hSlice hp hSize
  rintro ps rfl hMore hTracked
  simp only [runAction]
  cases d with
  | nil =>
    rw [Outcome.bind_of_error (hTracked.handleAttr_empty _ _)]
    rfl
  | cons kids outer =>
    cases kids with
    | nil =>
      rw [Outcome.bind_of_ok (hTracked.handleAttr_childless _ _)]
      exact ⟨_, rfl, rfl, hTracked⟩
    | node data c s =>
      obtain ⟨st', hRun, hTracked'⟩ := hTracked.handleAttr_child hName
      rw [Outcome.bind_of_ok hRun]
      exact ⟨_, rfl, hMore.resolve_right (by decide), hTracked'⟩

/-- A closing quote before the start of the blob makes its length negative. -/
theorem blk2bstr_between (hMark : mark ≤ 2 ^ 31) (hp : p < 2 ^ 31) :
    blk2bstr (buf.drop mark) (toInt (lenFrom mark p)) = blobBetween buf mark p := by
  unfold blobBetween
  split
  · rename_i hLe
    exact blk2bstr_slice hLe hp
  · rename_i hLt
    have hLen : lenFrom mark p = sizeMod - (mark - p) := by
      simp only [lenFrom, sizeMod]
      omega
    have hNeg := toInt_negative (show 0 < mark - p by omega) (by omega)
    rw [hLen]
    exact if_pos hNeg

theorem acts_blob (hMark : mark ≤ 2 ^ 31) (hp : p < 2 ^ 31) :
    Acts lib buf h₀ .blob mark p (.blob (blobBetween buf mark p)) d := by
  intro ps hps _ hTracked
  have hFrom : ∀ (st : Store D) (parent : Nat), st.errno = 0 →
      nodeFromStr lib st parent .blob (buf.drop mark) (lenFrom mark p) =
        (true, { st with heap := nodeCreate st.heap (some parent) (.blob (blobBetween buf mark p)) }) := by
    intro st parent _
    simp only [nodeFromStr, blk2bstr_between hMark hp]
  have hPush := push_spec .blob (some (.blob (blobBetween buf mark p))) hFrom hps hTracked
  simp only [runAction]
  cases d with
  | nil =>
    rw [Outcome.bind_of_ok hPush]
    exact ⟨ps, rfl, rfl, hTracked⟩
  | cons kids outer =>
    obtain ⟨ps', hRun, -, hTracked'⟩ := hPush
    rw [Outcome.bind_of_ok hRun]
    exact ⟨{ ps' with more := 0 }, rfl, rfl, hTracked'⟩

/-- The colon behind a blob length. -/
theorem scan_more (ps : Parser D) (hcs : ps.cs = 4) {digits rest : Bytes}
    (hSlice : buf.drop ps.mark = digits ++ 58 :: rest) (hNe : digits ≠ [])
    (hAll : ∀ c ∈ digits, Decimal.isDigit c = true) (hp : p = ps.mark + digits.length) :
    scan lib buf (58 :: rest) p ps =
      if sizeMod ≤ Decimal.value digits then
        .ok (p, { ps with cs := 5, more := sizeMod - 1, mark := p + 1,
                          store := { ps.store with errno := ERANGE } })
      else if Decimal.value digits = 0 then
        scan lib buf rest (p + 1) { ps with cs := 5, more := Decimal.value digits, mark := p + 1 }
      else .ok (p, { ps with cs := 5, more := Decimal.value digits, mark := p + 1 }) := by
  have hStop : ∀ c, (58 :: rest).head? = some c → Decimal.isDigit c = false := by
    intro c hc
    cases hc
    decide
  have hMachine : machine ps.cs 58 = (5, [.more]) := by simp [machine, hcs]
  rw [scan_cons lib buf ps (by omega), hMachine]
  simp only [runActions, runAction, hSlice]
  rw [strtoul_digits hNe hAll hStop]
  by_cases hBig : sizeMod ≤ Decimal.value digits
  · simp only [if_pos hBig, ← hp, if_true]
    rfl
  · simp only [if_neg hBig, ← hp, if_true]
    by_cases hZero : Decimal.value digits = 0
    · simp [hZero, errorState]
    · simp only [Nat.pos_of_ne_zero hZero, if_neg hZero, decide_true]
      rfl

end Actions

/-- `text` is what is left of the buffer at `p`. -/
structure At (buf : Bytes) (p : Nat) (text : Bytes) : Prop where
  drop : buf.drop p = text
  length : p + text.length = buf.length

namespace At
variable {buf : Bytes} {p : Nat} {rest : Bytes}

theorem of_le (h : p ≤ buf.length) : At buf p (buf.drop p) := by
  refine ⟨rfl, ?_⟩
  rw [List.length_drop]
  omega

theorem append (run : Bytes) (h : At buf p (run ++ rest)) : At buf (p + run.length) rest := by
  refine ⟨?_, ?_⟩
  · rw [← List.drop_drop, h.drop, List.drop_left]
  · rw [← h.length, List.length_append]
    omega

theorem cons {c : UInt8} (h : At buf p (c :: rest)) : At buf (p + 1) rest :=
  append [c] h

end At

section Tokens
variable {lib : DoubleLib D} {buf : Bytes} {h₀ : Heap D} {d : Doc D} {ps : Parser D}

theorem settled_of_more (hcs : 1 ≤ ps.cs ∧ ps.cs ≤ 14) (hMore : ps.more = 0) : Settled ps :=
  ⟨by omega, .inl hMore⟩

theorem afterLex_done {p : Nat} (hAt : At buf p []) (m : Nat) (hSettled : Settled ps)
    (hTracked : Tracked h₀ ps.store d) :
    AfterLex lib buf h₀ (scan lib buf [] p ps) m d .done := by
  have hp : p = buf.length := by simpa using hAt.length
  subst hp
  exact ⟨ps, rfl, hSettled, hTracked⟩

theorem afterLex_bad (hcs : 1 ≤ ps.cs ∧ ps.cs ≤ 14) {c : UInt8} (hMachine : machine ps.cs c = (0, []))
    (rest : Bytes) (p m : Nat) (hTracked : Tracked h₀ ps.store d) :
    AfterLex lib buf h₀ (scan lib buf (c :: rest) p ps) m d .bad :=
  ⟨p, _, scan_error lib buf ps hcs hMachine rest p, rfl, hTracked⟩

/-- A byte that must come next and does not. -/
theorem scan_lexMissing (ps : Parser D) (hcs : 1 ≤ ps.cs ∧ ps.cs ≤ 14) (hMore : ps.more = 0)
    (hTracked : Tracked h₀ ps.store d) {rest : Bytes} {p : Nat} (hAt : At buf p rest) (m : Nat)
    (hBad : ∀ c, rest.head? = some c → machine ps.cs c = (0, [])) :
    AfterLex lib buf h₀ (scan lib buf rest p ps) m d (lexMissing rest) := by
  cases rest with
  | nil => exact afterLex_done hAt m (settled_of_more hcs hMore) hTracked
  | cons c rest => exact afterLex_bad hcs (hBad c rfl) rest p m hTracked

/-- A token that ends where the next byte is not part of it. -/
theorem scan_lexEnd (ps : Parser D) (hcs : 1 ≤ ps.cs ∧ ps.cs ≤ 14) (hMore : ps.more = 0)
    (hTracked : Tracked h₀ ps.store d) {rest : Bytes} {len : Nat}
    (hAt : At buf (ps.mark + len) rest) {act : Action} {t : Token D}
    (hActs : Acts lib buf h₀ act ps.mark (ps.mark + len) t d)
    (hFlush : ∀ c, rest.head? = some c → machine ps.cs c = flush act c) :
    AfterLex lib buf h₀ (scan lib buf rest (ps.mark + len) ps) ps.mark d (lexEnd t len rest) := by
  cases rest with
  | nil => exact afterLex_done hAt _ (settled_of_more hcs hMore) hTracked
  | cons c rest =>
    have hMachine := hFlush c rfl
    by_cases hIdle : (idle c).1 = 0
    · simp only [lexEnd, hIdle, if_true]
      exact afterLex_bad hcs (hMachine.trans (if_pos hIdle)) rest _ _ hTracked
    · simp only [lexEnd, hIdle, if_false, AfterLex, AfterToken]
      replace hMachine := hMachine.trans (if_neg hIdle)
      have hRun := hActs { ps with cs := (idle c).1 } rfl (.inl hMore) hTracked
      cases hApply : applyToken t d with
      | next e =>
        simp only [hApply] at hRun
        obtain ⟨ps', hAct, hMore', hTracked'⟩ := hRun
        refine ⟨{ ps' with cs := 10 }, ⟨rfl, hMore', hTracked'⟩, ?_⟩
        rw [scan_flush_next hcs hMachine hAct, hAt.drop]
      | refused =>
        simp only [hApply] at hRun
        obtain ⟨ps', hAct, hMore', hTracked'⟩ := hRun
        refine ⟨ps', scan_flush_out hcs hMachine hAct rest, ⟨?_, .inl (hMore'.trans hMore)⟩, hTracked'⟩
        rwa [runAction_cs lib buf hAct]
      | closed tree =>
        simp only [hApply] at hRun
        obtain ⟨ps', hAct, hMore', hTree⟩ := hRun
        refine ⟨ps', scan_flush_out hcs hMachine hAct rest, ⟨?_, .inl (hMore'.trans hMore)⟩, hTree⟩
        rwa [runAction_cs lib buf hAct]
      | crashed =>
        simp only [hApply] at hRun
        exact scan_flush_fault hcs hMachine hRun rest

/-- A byte that ends its token itself. -/
theorem scan_act (ps : Parser D) (hcs : 1 ≤ ps.cs ∧ ps.cs ≤ 14) {act : Action}
    (hMore : ps.more = 0 ∨ act = .blob) (hTracked : Tracked h₀ ps.store d) {c : UInt8} {rest : Bytes}
    {p : Nat} (hAt : At buf p (c :: rest)) {t : Token D} (hMachine : machine ps.cs c = (10, [act]))
    (hActs : Acts lib buf h₀ act ps.mark p t d) :
    AfterToken lib buf h₀ (scan lib buf (c :: rest) p ps) t (p + 1) p d := by
  have hRun := hActs { ps with cs := 10 } rfl hMore hTracked
  rw [scan_cons lib buf ps hcs, hMachine]
  simp only [runActions, AfterToken, errorState]
  cases hApply : applyToken t d with
  | next e =>
    simp only [hApply] at hRun
    obtain ⟨ps', hAct, hMore', hTracked'⟩ := hRun
    refine ⟨ps', ⟨runAction_cs lib buf hAct, hMore', hTracked'⟩, ?_⟩
    rw [Outcome.bind_of_ok hAct, hAt.cons.drop]
    rfl
  | refused =>
    simp only [hApply] at hRun
    obtain ⟨ps', hAct, -, hTracked'⟩ := hRun
    have hcs' : ps'.cs = 10 := runAction_cs lib buf hAct
    refine ⟨ps', ?_, ⟨by omega, .inr hcs'⟩, hTracked'⟩
    rw [Outcome.bind_of_ok hAct]
    rfl
  | closed tree =>
    simp only [hApply] at hRun
    obtain ⟨ps', hAct, -, hTree⟩ := hRun
    have hcs' : ps'.cs = 10 := runAction_cs lib buf hAct
    refine ⟨ps', ?_, ⟨by omega, .inr hcs'⟩, hTree⟩
    rw [Outcome.bind_of_ok hAct]
    rfl
  | crashed =>
    simp only [hApply] at hRun
    rw [Outcome.bind_of_error hRun]
    rfl

theorem ne_dot_of_isDigit {c : UInt8} (h : Decimal.isDigit c = true) : c ≠ 46 := by
  rintro rfl
  exact absurd h (by decide)

/-- The digits behind a decimal point. -/
theorem scan_lexFraction (ps : Parser D) (hLen : buf.length < 2 ^ 31) (hcs : ps.cs = 8)
    (hMore : ps.more = 0)
    (hTracked : Tracked h₀ ps.store d) {frac : Bytes} {n : Nat} (hAt : At buf (ps.mark + n) frac) :
    AfterLex lib buf h₀ (scan lib buf frac (ps.mark + n) ps) ps.mark d
      (lexFraction lib (buf.drop ps.mark) n frac) := by
  obtain ⟨digits, rest, rfl, hTake, hDrop, hAll, hStop⟩ := exists_run Decimal.isDigit frac
  simp only [lexFraction, hTake, hDrop]
  cases digits with
  | nil =>
    refine scan_lexMissing ps (by omega) hMore hTracked hAt _ fun c hc => ?_
    simp [machine, hcs, hStop c hc]
  | cons c digits =>
    have hAtRest := hAt.append
    have hSize := hAtRest.length
    rw [if_neg (List.cons_ne_nil c digits), List.cons_append,
      scan_quiet_run lib buf ps 11 c digits rest _ (by omega) (by decide)]
    · rw [Nat.add_assoc] at hAtRest hSize ⊢
      refine scan_lexEnd { ps with cs := 11 } (by simp) hMore hTracked hAtRest
        (acts_float rfl (by simp only [sizeMod]; omega)) fun b hb => ?_
      simp [machine, hStop b hb]
    · simp [machine, hcs, hAll c List.mem_cons_self]
    · intro b hb
      simp [machine, hAll b (List.mem_cons_of_mem c hb)]

theorem scan_lexNumber (hLen : buf.length < 2 ^ 31) (hReady : Ready h₀ d ps) {c : UInt8}
    {text : Bytes} {p : Nat} (hAt : At buf p (c :: text)) (hIdle : idle c = (14, [.mark]))
    (hDigit : Decimal.isDigit c = true) :
    AfterLex lib buf h₀ (scan lib buf (c :: text) p ps) p d (lexNumber lib (c :: text)) := by
  obtain ⟨digits, rest, rfl, hTake, hDrop, hAll, hStop⟩ := exists_run_cons hDigit text
  have hAtRest : At buf (p + (c :: digits).length) rest := hAt.append (c :: digits)
  have hSize := hAtRest.length
  rw [scan_mark_run lib buf ps 14 c digits rest p (by simp [hReady.cs]) (by decide)
    (by simp [machine, hReady.cs, hIdle]) fun b hb => by
      have hb' := hAll b (List.mem_cons_of_mem c hb)
      simp [machine, hb', ne_dot_of_isDigit hb']]
  simp only [lexNumber, hTake, hDrop]
  split
  · rename_i frac
    rw [scan_quiet lib buf _ 8 (by simp) (by simp [machine]) (by decide), Nat.add_assoc, ← hAt.drop]
    exact scan_lexFraction { ps with cs := 8, mark := p } hLen rfl hReady.more hReady.tracked
      hAtRest.cons
  · rename_i hDot
    refine scan_lexEnd { ps with cs := 14, mark := p } (by simp) hReady.more hReady.tracked hAtRest
      (acts_number hAt.drop (List.cons_ne_nil _ _) hAll hStop rfl ?_) fun b hb => ?_
    · simp only [sizeMod]
      omega
    · have hb' : b ≠ 46 := by
        rintro rfl
        obtain ⟨frac, hFrac⟩ := List.head?_eq_some_iff.mp hb
        exact hDot frac hFrac
      simp [machine, hStop b hb, hb']

/-- A sign needs digits, a point and digits again. -/
theorem scan_lexSigned (hLen : buf.length < 2 ^ 31) (hReady : Ready h₀ d ps) {c : UInt8}
    {text : Bytes} {p : Nat} (hAt : At buf p (c :: text)) (hIdle : idle c = (6, [.mark])) :
    AfterLex lib buf h₀ (scan lib buf (c :: text) p ps) p d (lexSigned lib (c :: text)) := by
  obtain ⟨digits, rest, hText, hTake, hDrop, hAll, hStop⟩ := exists_run Decimal.isDigit text
  have hAtText := hAt.cons
  rw [scan_mark lib buf ps 6 (by simp [hReady.cs]) (by simp [machine, hReady.cs, hIdle]) (by decide)]
  simp only [lexSigned, List.tail_cons, hTake, hDrop]
  cases digits with
  | nil =>
    refine scan_lexMissing { ps with cs := 6, mark := p } (by simp) hReady.more hReady.tracked
      hAtText p fun b hb => ?_
    have hb' : rest.head? = some b := by simpa [hText] using hb
    simp [machine, hStop b hb']
  | cons b digits =>
    have hAtRest : At buf (p + 1 + (b :: digits).length) rest := (hText ▸ hAtText).append (b :: digits)
    have hScan := scan_quiet_run lib buf { ps with cs := 6, mark := p } 7 b digits rest (p + 1)
      (by simp) (by decide) (by simp [machine, hAll b List.mem_cons_self]) fun x hx => by
        have hx' := hAll x (List.mem_cons_of_mem b hx)
        simp [machine, hx', ne_dot_of_isDigit hx']
    rw [← List.cons_append, ← hText] at hScan
    rw [hScan, if_neg (List.cons_ne_nil b digits)]
    split
    · rename_i frac
      have hPos : p + 1 + (b :: digits).length + 1 = p + ((b :: digits).length + 2) := by omega
      have hAtFrac := hAtRest.cons
      rw [hPos] at hAtFrac
      rw [scan_quiet lib buf _ 8 (by simp) (by simp [machine]) (by decide), hPos, ← hAt.drop]
      exact scan_lexFraction { ps with cs := 8, mark := p } hLen rfl hReady.more hReady.tracked
        hAtFrac
    · rename_i hDot
      refine scan_lexMissing { ps with cs := 7, mark := p } (by simp) hReady.more hReady.tracked
        hAtRest p fun x hx => ?_
      have hx' : x ≠ 46 := by
        rintro rfl
        obtain ⟨frac, hFrac⟩ := List.head?_eq_some_iff.mp hx
        exact hDot frac hFrac
      simp [machine, hStop x hx, hx']

theorem scan_lexWord (hLen : buf.length < 2 ^ 31) (hReady : Ready h₀ d ps) {c : UInt8}
    {text : Bytes} {p : Nat} (hAt : At buf p (c :: text)) (hIdle : idle c = (13, [.mark]))
    (hAlpha : isAlpha c = true) :
    AfterLex lib buf h₀ (scan lib buf (c :: text) p ps) p d (lexWord (c :: text)) := by
  have hWord : isWordChar c = true := by simp [isWordChar, hAlpha]
  obtain ⟨word, rest, rfl, hTake, hDrop, hAll, hStop⟩ := exists_run_cons hWord text
  have hAtRest : At buf (p + (c :: word).length) rest := hAt.append (c :: word)
  have hSize := hAtRest.length
  rw [scan_mark_run lib buf ps 13 c word rest p (by simp [hReady.cs]) (by decide)
    (by simp [machine, hReady.cs, hIdle]) fun b hb => by
      simp [machine, hAll b (List.mem_cons_of_mem c hb)]]
  simp only [lexWord, hTake, hDrop]
  refine scan_lexEnd { ps with cs := 13, mark := p } (by simp) hReady.more hReady.tracked hAtRest
    (acts_word hAt.drop rfl (by simp only; omega)) fun b hb => ?_
  simp [machine, hStop b hb]

theorem scan_lexAttrib (hLen : buf.length < 2 ^ 31) (hReady : Ready h₀ d ps) {text : Bytes} {p : Nat}
    (hAt : At buf p (64 :: text)) :
    AfterLex lib buf h₀ (scan lib buf (64 :: text) p ps) p d (lexAttrib (64 :: text)) := by
  have hAtText := hAt.cons
  rw [scan_mark lib buf ps 9 (by simp [hReady.cs]) (by simp [machine, hReady.cs, idle, isSpace])
    (by decide)]
  cases text with
  | nil => exact afterLex_done hAtText p (settled_of_more (by simp) hReady.more) hReady.tracked
  | cons c text =>
    simp only [lexAttrib, List.tail_cons]
    split
    · rename_i hAlpha
      have hWord : isWordChar c = true := by simp [isWordChar, hAlpha]
      obtain ⟨word, rest, rfl, hTake, hDrop, hAll, hStop⟩ := exists_run_cons hWord text
      have hPos : p + 1 + (c :: word).length = p + ((c :: word).length + 1) := by omega
      have hAtRest : At buf (p + 1 + (c :: word).length) rest := hAtText.append (c :: word)
      rw [hPos] at hAtRest
      have hSize := hAtRest.length
      rw [scan_quiet_run lib buf { ps with cs := 9, mark := p } 12 c word rest (p + 1) (by simp)
        (by decide) (by simp [machine, hAlpha]) fun b hb => by
          simp [machine, hAll b (List.mem_cons_of_mem c hb)], hTake, hDrop, hPos]
      have hSlice : buf.drop p = (64 :: c :: word) ++ rest := hAt.drop
      refine scan_lexEnd { ps with cs := 12, mark := p } (by simp) hReady.more hReady.tracked hAtRest
        (acts_attrib hSlice rfl (by simp only; omega)) fun b hb => ?_
      simp [machine, hStop b hb]
    · rename_i hAlpha
      exact afterLex_bad (by simp) (by simp [machine, hAlpha]) text _ p hReady.tracked

theorem scan_lexString (hLen : buf.length < 2 ^ 31) (hReady : Ready h₀ d ps) {text : Bytes} {p : Nat}
    (hAt : At buf p (34 :: text)) :
    AfterLex lib buf h₀ (scan lib buf (34 :: text) p ps) p d (lexString (34 :: text)) := by
  obtain ⟨s, rest, hText, hTake, hDrop, hAll, hStop⟩ := exists_run (fun c : UInt8 => decide (c ≠ 34)) text
  have hAtText := hAt.cons
  have hAtRest : At buf (p + 1 + s.length) rest := (hText ▸ hAtText).append s
  have hSize := hAtRest.length
  -- The mark is set at the first byte of the string, also when that is the closing quote.
  have hEnter : ∀ c tail, text = c :: tail → scan lib buf text (p + 1) { ps with cs := 1 } =
      scan lib buf text (p + 1) { ps with cs := 2, mark := p + 1 } := by
    rintro c tail rfl
    rw [scan_cons lib buf _ (by simp), scan_cons lib buf _ (by simp)]
    by_cases hc : c = 34 <;> simp [machine, hc, runActions, runAction]
  have hRun := scan_run lib buf { ps with cs := 2, mark := p + 1 } (by simp) s rest (p + 1)
    fun c hc => by simpa [machine] using hAll c hc
  rw [scan_quiet lib buf ps 1 (by simp [hReady.cs]) (by simp [machine, hReady.cs, idle, isSpace])
    (by decide)]
  simp only [lexString, List.tail_cons, hTake, hDrop]
  cases text with
  | nil =>
    have hNil : rest = [] := by simpa using (List.append_eq_nil_iff.mp hText.symm).2
    rw [if_pos hNil]
    exact afterLex_done hAtText p (settled_of_more (by simp) hReady.more) hReady.tracked
  | cons c tail =>
    rw [hEnter c tail rfl, hText, hRun]
    cases rest with
    | nil =>
      rw [if_pos rfl]
      exact afterLex_done hAtRest p (settled_of_more (by simp) hReady.more) hReady.tracked
    | cons b rest =>
      have hb : b = 34 := by simpa using hStop b rfl
      subst hb
      rw [if_neg (List.cons_ne_nil _ _)]
      have hSlice : buf.drop (p + 1) = s ++ 34 :: rest := hAtText.drop.trans hText
      have hActs : Acts lib buf h₀ .string (p + 1) (p + 1 + s.length) (.string s) d :=
        acts_string hSlice rfl (by simp only [List.length_cons] at hSize; omega)
      have hToken := scan_act { ps with cs := 2, mark := p + 1 } (by simp) (.inl hReady.more)
        hReady.tracked hAtRest (by simp [machine]) hActs
      simpa only [AfterLex, Nat.add_assoc, Nat.add_comm 1] using hToken

/-- The blob length and the colon behind it. -/
theorem scan_lexBlob (hLen : buf.length < 2 ^ 31) (hReady : Ready h₀ d ps) {text : Bytes} {p : Nat}
    (hAt : At buf p (39 :: text)) :
    AfterLex lib buf h₀ (scan lib buf (39 :: text) p ps) p d (lexBlob (39 :: text)) := by
  obtain ⟨digits, rest, hText, hTake, hDrop, hAll, hStop⟩ := exists_run Decimal.isDigit text
  have hAtText := hAt.cons
  rw [scan_quiet lib buf ps 3 (by simp [hReady.cs]) (by simp [machine, hReady.cs, idle, isSpace])
    (by decide)]
  simp only [lexBlob, List.tail_cons, hTake, hDrop]
  cases digits with
  | nil =>
    refine scan_lexMissing { ps with cs := 3 } (by simp) hReady.more hReady.tracked hAtText p
      fun b hb => ?_
    have hb' : rest.head? = some b := by simpa [hText] using hb
    simp [machine, hStop b hb']
  | cons b digits =>
    have hAtRest : At buf (p + 1 + (b :: digits).length) rest := (hText ▸ hAtText).append (b :: digits)
    have hScan := scan_mark_run lib buf { ps with cs := 3 } 4 b digits rest (p + 1)
      (by simp) (by decide) (by simp [machine, hAll b List.mem_cons_self]) fun x hx => by
        have hx' := hAll x (List.mem_cons_of_mem b hx)
        have hColon : x ≠ 58 := by
          rintro rfl
          exact absurd hx' (by decide)
        simp [machine, hx', hColon]
    rw [← List.cons_append, ← hText] at hScan
    rw [hScan, if_neg (List.cons_ne_nil b digits)]
    split
    · rename_i rest'
      have hSlice : buf.drop (p + 1) = b :: digits ++ 58 :: rest' := hAtText.drop.trans hText
      have hPos : p + ((b :: digits).length + 2) = p + 1 + (b :: digits).length + 1 := by omega
      have hAtBody := hAtRest.cons
      rw [scan_more { ps with cs := 4, mark := p + 1 } rfl hSlice (List.cons_ne_nil _ _) hAll rfl]
      simp only [AfterLex, AfterLength, hPos, hAtBody.drop]
      split
      · have hFail : Tracked h₀ ps.store.fail d := by
          rw [hReady.tracked.fail_eq]
          exact hReady.tracked
        exact ⟨_, _, rfl, by simp [ERANGE], hFail⟩
      · exact ⟨{ ps with cs := 5, mark := p + 1 + (b :: digits).length + 1,
                         more := Decimal.value (b :: digits) }, rfl, rfl, rfl, hReady.tracked, rfl⟩
    · rename_i hColon
      refine scan_lexMissing { ps with cs := 4, mark := p + 1 } (by simp) hReady.more hReady.tracked
        hAtRest p fun x hx => ?_
      have hx' : x ≠ 58 := by
        rintro rfl
        obtain ⟨tail, hTail⟩ := List.head?_eq_some_iff.mp hx
        exact hColon tail hTail
      simp [machine, hStop x hx, hx']

/-- The scanner does what the lexer says about the text it stands before. -/
theorem scan_lex (lib : DoubleLib D) (hLen : buf.length < 2 ^ 31) (hReady : Ready h₀ d ps)
    {text : Bytes} {p : Nat} (hAt : At buf p text) :
    AfterLex lib buf h₀ (scan lib buf text p ps) p d (lex lib text) := by
  have hcs : 1 ≤ ps.cs ∧ ps.cs ≤ 14 := by simp [hReady.cs]
  have hIdle : ∀ c, machine ps.cs c = idle c := fun c => by simp [machine, hReady.cs]
  induction text generalizing p with
  | nil => exact afterLex_done hAt p (settled_of_more hcs hReady.more) hReady.tracked
  | cons c rest ih =>
    rw [lex]
    split
    · rename_i hSpace
      have hStay : { ps with cs := 10 } = ps := by rw [← hReady.cs]
      rw [scan_quiet lib buf ps 10 hcs (by rw [hIdle]; simp [idle, hSpace]) (by decide), hStay]
      exact (ih hAt.cons).shift
    rename_i hSpace
    split
    · rename_i hQuote
      subst hQuote
      exact scan_lexString hLen hReady hAt
    rename_i hQuote
    split
    · rename_i hTick
      subst hTick
      exact scan_lexBlob hLen hReady hAt
    rename_i hTick
    split
    · rename_i hSign
      exact scan_lexSigned hLen hReady hAt (by simp [idle, hSpace, hQuote, hTick, hSign])
    rename_i hSign
    split
    · rename_i hAttr
      subst hAttr
      exact scan_lexAttrib hLen hReady hAt
    rename_i hAttr
    split
    · rename_i hOpen
      exact scan_act ps hcs (.inl hReady.more) hReady.tracked hAt
        (by rw [hIdle, hOpen]; rfl) acts_start
    rename_i hOpen
    split
    · rename_i hClose
      exact scan_act ps hcs (.inl hReady.more) hReady.tracked hAt
        (by rw [hIdle, hClose]; rfl) acts_group
    rename_i hClose
    split
    · rename_i hDigit
      exact scan_lexNumber hLen hReady hAt
        (by simp [idle, hSpace, hQuote, hTick, hSign, hAttr, hOpen, hClose, hDigit]) hDigit
    rename_i hDigit
    split
    · rename_i hAlpha
      exact scan_lexWord hLen hReady hAt
        (by simp [idle, hSpace, hQuote, hTick, hSign, hAttr, hOpen, hClose, hDigit, hAlpha]) hAlpha
    · rename_i hAlpha
      refine afterLex_bad hcs ?_ rest p p hReady.tracked
      rw [hIdle]
      simp [idle, hSpace, hQuote, hTick, hSign, hAttr, hOpen, hClose, hDigit, hAlpha]

/-- The closing quote of a blob. -/
theorem scan_blob (lib : DoubleLib D) (hLen : buf.length < 2 ^ 31) (hcs : ps.cs = 5)
    (hMark : ps.mark ≤ buf.length) (hTracked : Tracked h₀ ps.store d) {off : Nat} (hOff : off < buf.length) :
    if buf[off]? = some 39 then
      AfterToken lib buf h₀ (scan lib buf (buf.drop off) off ps)
        (.blob (blobBetween buf ps.mark off)) (off + 1) off d
    else ∃ q ps', scan lib buf (buf.drop off) off ps = .ok (q, ps') ∧ ps'.cs = 0 ∧
      Tracked h₀ ps'.store d := by
  have hAt := At.of_le (Nat.le_of_lt hOff)
  rw [List.drop_eq_getElem_cons hOff] at hAt ⊢
  rw [List.getElem?_eq_getElem hOff]
  split
  · rename_i hQuote
    rw [Option.some.inj hQuote] at hAt ⊢
    exact scan_act ps (by omega) (.inr rfl) hTracked hAt (by simp [machine, hcs])
      (acts_blob (by omega) (by omega))
  · rename_i hQuote
    have hMachine : machine ps.cs buf[off] = (0, []) := by
      have hNe : buf[off] ≠ 39 := fun h => hQuote (congrArg some h)
      simp [machine, hcs, hNe]
    exact ⟨off, _, scan_error lib buf ps (by omega) hMachine _ off, rfl, hTracked⟩

end Tokens

end Utu.Stackish
