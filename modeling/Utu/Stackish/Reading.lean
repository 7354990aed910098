import Utu.Stackish.Lexing

/-!
# `Node_parse_seq` reads the buffer

The parser is entered once at the start and again behind every blob. Between two
tokens it is described by the offset and the document alone, so a call does what
reading from its start offset does: it comes to the ending of the reading, and
runs for ever when the reading has none.
-/

namespace Utu.Stackish
open LinkedForest
set_option autoImplicit false

variable {D : Type}

theorem scan_le {lib : DoubleLib D} {buf rest : Bytes} {p q : Nat} {ps ps' : Parser D}
    (h : scan lib buf rest p ps = .ok (q, ps')) : q ≤ p + rest.length := by
  induction rest generalizing p ps with
  | nil =>
    cases h
    exact Nat.le_refl _
  | cons c rest ih =>
    obtain ⟨⟨out, ps₁⟩, -, hRest⟩ := Outcome.bind_eq_ok_iff.mp h
    simp only at hRest
    split at hRest
    · cases hRest
      exact Nat.le_add_right _ _
    split at hRest
    · cases hRest
      exact Nat.le_add_right _ _
    · have := ih hRest
      simp only [List.length_cons]
      omega

section Execute
variable {lib : DoubleLib D} {buf : Bytes} {ps ps' : Parser D} {p q : Nat}

/-- On a live parser the assertions around the scanner hold. -/
theorem execute_eq (hcs : ps.cs ≠ 0) (hp : p ≤ buf.length) :
    stackishParserExecute lib ps buf p = (scan lib buf (buf.drop p) p ps >>= fun r =>
      pure { r.2 with nread := r.1 }) := by
  have hOff : ¬ buf.length < p := by omega
  simp only [stackishParserExecute, hOff, hcs, errorState, if_false]
  cases hScan : scan lib buf (buf.drop p) p ps with
  | error e => rfl
  | ok r =>
    have hLe := scan_le hScan
    rw [List.length_drop] at hLe
    have hEnd : ¬ buf.length < r.1 := by omega
    change (if buf.length < r.1 then _ else _) = _
    rw [if_neg hEnd]
    rfl

theorem execute_ok (hcs : ps.cs ≠ 0) (hp : p ≤ buf.length)
    (hScan : scan lib buf (buf.drop p) p ps = .ok (q, ps')) :
    stackishParserExecute lib ps buf p = .ok { ps' with nread := q } := by
  rw [execute_eq hcs hp, hScan]
  rfl

theorem execute_error (hcs : ps.cs ≠ 0) (hp : p ≤ buf.length) {e : Fault}
    (hScan : scan lib buf (buf.drop p) p ps = .error e) :
    stackishParserExecute lib ps buf p = .error e := by
  rw [execute_eq hcs hp, hScan]
  rfl

theorem execute_congr (hcs : ps.cs ≠ 0) (hcs' : ps'.cs ≠ 0) (hp : p ≤ buf.length)
    (hq : q ≤ buf.length)
    (hScan : scan lib buf (buf.drop p) p ps = scan lib buf (buf.drop q) q ps') :
    stackishParserExecute lib ps buf p = stackishParserExecute lib ps' buf q := by
  rw [execute_eq hcs hp, execute_eq hcs' hq, hScan]

end Execute

section Meets
variable (lib : DoubleLib D) (buf : Bytes) (h₀ : Heap D)

/-- How one call of the scanner ends when reading stops in it. -/
def Stops (d : Doc D) (r : Run (Parser D)) : Ending D → Prop
  | .ended => ∃ ps, r = .ok ps ∧ Settled ps ∧ ps.nread = buf.length ∧ Tracked h₀ ps.store d
  | .lexError => ∃ ps, r = .ok ps ∧ parseFails ps = true ∧ Tracked h₀ ps.store.fail d
  | .refused stop => ∃ ps, r = .ok ps ∧ Settled ps ∧ ps.nread = stop ∧ Tracked h₀ ps.store d
  | .closed t stop => ∃ ps, r = .ok ps ∧ Settled ps ∧ ps.nread = stop ∧ ps.store.errno = 0 ∧
      Extends h₀ ps.store.heap ∧ Represents ps.store.heap none ps.store.root t
  | .crashed => r = .error .nullPointer
  | .overrun => False

/-- One call of the scanner, as a step of reading. -/
def Meets (d : Doc D) (r : Run (Parser D)) : Step D → Prop
  | .go _ q e => q ≤ buf.length ∧ ∃ ps, Ready h₀ e ps ∧ r = stackishParserExecute lib ps buf q
  | .stop x => Stops buf h₀ d r x

/-- The parser has read the length of a blob and stands on the colon. -/
structure AtBlob (start n : Nat) (d : Doc D) (ps : Parser D) : Prop where
  cs : ps.cs = 5
  mark : ps.mark = start
  more : ps.more = n
  nread : ps.nread + 1 = start
  tracked : Tracked h₀ ps.store d

end Meets

section Step
variable {lib : DoubleLib D} {buf : Bytes} {h₀ : Heap D} {d : Doc D} {ps : Parser D} {p : Nat}

theorem Ready.live (h : Ready h₀ d ps) : ps.cs ≠ 0 := by
  rw [h.cs]
  decide

theorem meets_token (hcs : ps.cs ≠ 0) (hp : p ≤ buf.length) {t : Token D} {next stop : Nat}
    (hNext : next ≤ buf.length)
    (h : AfterToken lib buf h₀ (scan lib buf (buf.drop p) p ps) t next stop d) :
    Meets lib buf h₀ d (stackishParserExecute lib ps buf p) (stepToken t next stop d) := by
  simp only [AfterToken] at h
  simp only [stepToken]
  cases hApply : applyToken t d with
  | next e =>
    simp only [hApply] at h
    obtain ⟨ps', hReady, hScan⟩ := h
    exact ⟨hNext, ps', hReady, execute_congr hcs hReady.live hp hNext hScan⟩
  | refused =>
    simp only [hApply] at h
    obtain ⟨ps', hScan, hSettled, hTracked⟩ := h
    exact ⟨_, execute_ok hcs hp hScan, ⟨hSettled.cs, hSettled.more⟩, rfl, hTracked⟩
  | closed tree =>
    simp only [hApply] at h
    obtain ⟨ps', hScan, hSettled, hTree⟩ := h
    exact ⟨_, execute_ok hcs hp hScan, ⟨hSettled.cs, hSettled.more⟩, rfl, hTree⟩
  | crashed =>
    simp only [hApply] at h
    exact execute_error hcs hp h

theorem meets_error (hcs : ps.cs ≠ 0) (hp : p ≤ buf.length)
    (h : ∃ q ps', scan lib buf (buf.drop p) p ps = .ok (q, ps') ∧ ps'.cs = 0 ∧
      Tracked h₀ ps'.store d) :
    Stops buf h₀ d (stackishParserExecute lib ps buf p) .lexError := by
  obtain ⟨q, ps', hScan, hcs', hTracked⟩ := h
  refine ⟨_, execute_ok hcs hp hScan, by simp [parseFails, hasError, hcs', errorState], ?_⟩
  change Tracked h₀ ps'.store.fail d
  rwa [hTracked.fail_eq]

/-- The closing quote of a blob that starts at `start`. -/
theorem meets_blob (lib : DoubleLib D) (hLen : buf.length < 2 ^ 31) (hcs : ps.cs = 5)
    {start n : Nat} (hMark : ps.mark = start) (hStart : start ≤ buf.length) (hTracked : Tracked h₀ ps.store d)
    (hn : n < sizeMod) (hOff : resumeAt start n < buf.length) :
    Meets lib buf h₀ d (stackishParserExecute lib ps buf (resumeAt start n)) (stepBlob buf start n d) := by
  have hBlob := scan_blob lib hLen hcs (by omega) hTracked hOff
  have hcs' : ps.cs ≠ 0 := by omega
  simp only [stepBlob, Nat.not_le.mpr hn, Nat.not_le.mpr hOff, if_false]
  split at hBlob
  · rename_i hQuote
    rw [hMark] at hBlob
    rw [if_pos hQuote]
    exact meets_token hcs' (Nat.le_of_lt hOff) hOff hBlob
  · rename_i hQuote
    rw [if_neg hQuote]
    exact meets_error hcs' (Nat.le_of_lt hOff) hBlob

/-- At `p` stands the length of a blob for which the scanner leaves its loop. -/
def LongBlob (lib : DoubleLib D) (buf : Bytes) (p n len : Nat) : Prop :=
  lex lib (buf.drop p) = .blobHead n len ∧ 0 < n ∧ n < sizeMod

theorem blobHead_le {n len : Nat} (hp : p ≤ buf.length)
    (hLex : lex lib (buf.drop p) = .blobHead n len) : 1 ≤ len ∧ p + len ≤ buf.length := by
  have hWithin := lex_within lib (buf.drop p)
  rw [hLex] at hWithin
  obtain ⟨before, after, hText, rfl⟩ := hWithin
  have hLength := congrArg List.length hText
  simp only [List.length_drop, List.length_append, List.length_cons] at hLength
  omega

/-- A buffer that ends in a blank does not end in the colon of a blob length. -/
theorem blobHead_lt (hEnds : endsInSpace buf = true) {n len : Nat} (hp : p ≤ buf.length)
    (hLex : lex lib (buf.drop p) = .blobHead n len) : p + len < buf.length := by
  have hWithin := lex_within lib (buf.drop p)
  rw [hLex] at hWithin
  obtain ⟨before, after, hText, rfl⟩ := hWithin
  have hLength := congrArg List.length hText
  simp only [List.length_drop, List.length_append, List.length_cons] at hLength
  cases after with
  | cons b after => simp only [List.length_cons] at hLength; omega
  | nil =>
    have hBuf : buf = buf.take p ++ before ++ [58] := by
      rw [List.append_assoc, ← hText, List.take_append_drop]
    rw [hBuf] at hEnds
    simp [endsInSpace] at hEnds

theorem resumeAt_zero {start : Nat} (hLen : buf.length < 2 ^ 31) (hStart : start ≤ buf.length) :
    resumeAt start 0 = start :=
  Nat.mod_eq_of_lt (by simp only [sizeMod]; omega)

/-- Where no long blob begins, one call of the scanner makes the step, and moves forward. -/
theorem execute_step (hLen : buf.length < 2 ^ 31) (hEnds : endsInSpace buf = true)
    (hReady : Ready h₀ d ps) (hp : p ≤ buf.length) (hShort : ∀ n len, ¬ LongBlob lib buf p n len) :
    Meets lib buf h₀ d (stackishParserExecute lib ps buf p) (step lib buf p d) ∧
      ∀ t q e, step lib buf p d = .go t q e → p < q := by
  have hScan := scan_lex lib hLen hReady (At.of_le hp)
  have hWithin := lex_within lib (buf.drop p)
  have hcs := hReady.live
  simp only [step]
  cases hLex : lex lib (buf.drop p) with
  | done =>
    rw [hLex] at hScan
    obtain ⟨ps', hScan, hSettled, hTracked⟩ := hScan
    refine ⟨⟨_, execute_ok hcs hp hScan, ⟨hSettled.cs, hSettled.more⟩, rfl, hTracked⟩, ?_⟩
    rintro t q e ⟨⟩
  | bad =>
    rw [hLex] at hScan
    refine ⟨meets_error hcs hp hScan, ?_⟩
    rintro t q e ⟨⟩
  | token t len stop =>
    rw [hLex] at hScan hWithin
    obtain ⟨hPos, hLe, -⟩ := hWithin
    rw [List.length_drop] at hLe
    refine ⟨meets_token hcs hp (by omega) hScan, ?_⟩
    intro t' q e hGo
    simp only [stepToken] at hGo
    cases hApply : applyToken t d <;> rw [hApply] at hGo <;> cases hGo
    omega
  | blobHead n len =>
    rw [hLex] at hScan
    have hStart := blobHead_lt hEnds hp hLex
    simp only [AfterLex, AfterLength] at hScan
    by_cases hBig : sizeMod ≤ n
    · simp only [stepBlob, hBig, if_true] at hScan ⊢
      obtain ⟨q, ps', hScan, hErrno, hTracked⟩ := hScan
      refine ⟨⟨_, execute_ok hcs hp hScan, by simp [parseFails, hErrno], hTracked⟩, ?_⟩
      rintro t q e ⟨⟩
    · have hZero : n = 0 := by
        by_contra hn
        exact hShort n len ⟨hLex, Nat.pos_of_ne_zero hn, Nat.not_le.mp hBig⟩
      subst hZero
      rw [if_neg hBig] at hScan
      obtain ⟨ps', hcs', hMark, -, hTracked, hScan⟩ := hScan
      have hOff := resumeAt_zero hLen (Nat.le_of_lt hStart)
      have hMeets := meets_blob lib hLen hcs' hMark (Nat.le_of_lt hStart) hTracked
        (Nat.not_le.mp hBig) (by omega)
      rw [hOff, ← execute_congr hcs (by omega) hp (Nat.le_of_lt hStart) hScan] at hMeets
      refine ⟨hMeets, fun t q e hGo => ?_⟩
      simp only [stepBlob, hBig, hOff, if_false] at hGo
      split at hGo
      · cases hGo
      split at hGo
      · simp only [stepToken] at hGo
        split at hGo <;> cases hGo
        omega
      · cases hGo

/-- At a long blob the scanner stops on the colon. -/
theorem execute_header (hLen : buf.length < 2 ^ 31) (hReady : Ready h₀ d ps) (hp : p ≤ buf.length)
    {n len : Nat} (hLong : LongBlob lib buf p n len) :
    ∃ ps', stackishParserExecute lib ps buf p = .ok ps' ∧ AtBlob h₀ (p + len) n d ps' := by
  obtain ⟨hLex, hPos, hn⟩ := hLong
  have hScan := scan_lex lib hLen hReady (At.of_le hp)
  have hBound := blobHead_le hp hLex
  rw [hLex] at hScan
  simp only [AfterLex, AfterLength, Nat.not_le.mpr hn, if_false, Nat.ne_of_gt hPos] at hScan
  obtain ⟨ps', hcs, hMark, hMore, hTracked, hScan⟩ := hScan
  exact ⟨_, execute_ok hReady.live hp hScan, hcs, hMark, hMore, by simp only; omega, hTracked⟩

end Step

section Loop
variable {lib : DoubleLib D} {buf : Bytes} {h₀ : Heap D} {d : Doc D} {ps : Parser D} {p : Nat}

theorem AtBlob.parseFails_eq {start n : Nat} (h : AtBlob h₀ start n d ps) :
    parseFails ps = false := by
  simp [parseFails, hasError, h.cs, errorState, h.tracked.errno_eq]

theorem AtBlob.needsMore_eq {start n : Nat} (h : AtBlob h₀ start n d ps) (hn : 0 < n)
    (hStart : start ≤ buf.length) : needsMore buf ps = true := by
  have hRead := h.nread
  have hMore : ps.more ≠ 0 := by rw [h.more]; omega
  have hLt : ps.nread < buf.length := by omega
  simp [needsMore, hMore, isFinished, h.cs, firstFinal, hLt]

theorem AtBlob.resumeOffset_eq {start n : Nat} (h : AtBlob h₀ start n d ps) :
    resumeOffset ps = resumeAt start n := by
  have hRead := h.nread
  simp only [resumeOffset, resumeAt, h.more]
  congr 1
  omega

theorem Settled.needsMore_eq (h : Settled ps) : needsMore buf ps = false := by
  rcases h.more with hMore | hcs
  · simp [needsMore, hMore]
  · simp [needsMore, isFinished, hcs, firstFinal]

theorem Settled.parseFails_eq (h : Settled ps) (hErrno : ps.store.errno = 0) :
    parseFails ps = false := by
  simp [parseFails, hasError, errorState, h.cs, hErrno]

theorem parseLoop_settled (h : Settled ps) (hErrno : ps.store.errno = 0) (fuel : Nat) :
    parseLoop lib buf (fuel + 1) ps =
      .ok ⟨ps.store.root, skipNewlines (buf.drop (ps.nread + 1)) (ps.nread + 1), ps.store.heap, 0⟩ := by
  simp only [parseLoop, h.parseFails_eq hErrno, h.needsMore_eq, hErrno, Bool.false_eq_true, if_false]
  rfl

theorem parseLoop_failed (h : parseFails ps = true) (fuel : Nat) :
    parseLoop lib buf (fuel + 1) ps = parseFailed ps ps.nread := by
  simp only [parseLoop, h, if_true]

theorem parseLoop_blob {start n : Nat} (h : AtBlob h₀ start n d ps) (hn : 0 < n)
    (hStart : start ≤ buf.length) (fuel : Nat) :
    parseLoop lib buf (fuel + 1) ps =
      if buf.length ≤ resumeAt start n then .error (.assertFailed "buffer overflow")
      else stackishParserExecute lib ps buf (resumeAt start n) >>= parseLoop lib buf fuel := by
  simp only [parseLoop, h.parseFails_eq, h.needsMore_eq hn hStart, h.resumeOffset_eq,
    Bool.false_eq_true, if_false, if_true]
  rfl

/-- What a call has done when its reading came to an end with the document `d`. -/
def Ends (buf : Bytes) (h₀ : Heap D) (d : Doc D) (r : Run (Parsed D)) : Ending D → Prop
  | .ended => ∃ root heap, r = .ok ⟨root, buf.length + 1, heap, 0⟩ ∧ Extends h₀ heap ∧
      Represents heap none root d.root
  | .lexError =>
    if d.root.height < maxTreeDeep then ∃ next heap, r = .ok ⟨none, next, heap, 0⟩ ∧ Extends h₀ heap
    else r = .error (.assertFailed "the binary_tree is too deep")
  | .refused stop => ∃ root heap,
      r = .ok ⟨root, skipNewlines (buf.drop (stop + 1)) (stop + 1), heap, 0⟩ ∧ Extends h₀ heap ∧
      Represents heap none root d.root
  | .closed t stop => ∃ root heap,
      r = .ok ⟨root, skipNewlines (buf.drop (stop + 1)) (stop + 1), heap, 0⟩ ∧ Extends h₀ heap ∧
      Represents heap none root t
  | .crashed => r = .error .nullPointer
  | .overrun => r = .error (.assertFailed "buffer overflow")

theorem ends_of_stops {r : Run (Parser D)} {x : Ending D} (h : Stops buf h₀ d r x) (fuel : Nat) :
    Ends buf h₀ d (r >>= parseLoop lib buf (fuel + 1)) x := by
  cases x with
  | ended =>
    obtain ⟨ps, rfl, hSettled, hRead, hTracked⟩ := h
    refine ⟨_, _, ?_, hTracked.kept, hTracked.represents⟩
    rw [Outcome.bind_of_ok rfl, parseLoop_settled hSettled hTracked.errno_eq, hRead]
    simp [skipNewlines]
  | lexError =>
    obtain ⟨ps, rfl, hFails, hTracked⟩ := h
    have hDestroy := nodeDestroy_represents hTracked.represents
    rw [Outcome.bind_of_ok rfl, parseLoop_failed hFails]
    simp only [Ends, parseFailed]
    split at hDestroy
    · rename_i hHeight
      obtain ⟨freed, hFreed⟩ := hDestroy
      rw [if_pos hHeight]
      exact ⟨_, _, Outcome.bind_of_ok hFreed _, hTracked.kept⟩
    · rename_i hHeight
      rw [if_neg hHeight]
      exact Outcome.bind_of_error hDestroy _
  | refused stop =>
    obtain ⟨ps, rfl, hSettled, rfl, hTracked⟩ := h
    exact ⟨_, _, (Outcome.bind_of_ok rfl _).trans (parseLoop_settled hSettled hTracked.errno_eq fuel),
      hTracked.kept, hTracked.represents⟩
  | closed t stop =>
    obtain ⟨ps, rfl, hSettled, rfl, hErrno, hTree⟩ := h
    exact ⟨_, _, (Outcome.bind_of_ok rfl _).trans (parseLoop_settled hSettled hErrno fuel), hTree⟩
  | crashed =>
    cases h
    rfl
  | overrun => exact h.elim

end Loop

section Parse
variable {lib : DoubleLib D} {buf : Bytes} {h₀ : Heap D} {d : Doc D} {ps : Parser D} {p : Nat}

/-- The rest of a call whose scanner is entered at `p`. -/
def parseFrom (lib : DoubleLib D) (buf : Bytes) (fuel p : Nat) (ps : Parser D) : Run (Parsed D) :=
  stackishParserExecute lib ps buf p >>= parseLoop lib buf fuel

theorem nodeParseSeq_eq (hEnds : endsInSpace buf = true) (fuel : Nat) :
    nodeParseSeq lib fuel h₀ 0 buf p = parseFrom lib buf fuel p (stackishParserInit h₀ 0) := by
  simp only [nodeParseSeq, hEnds]
  rfl

theorem ready_init (h₀ : Heap D) : Ready h₀ [] (stackishParserInit h₀ 0) :=
  ⟨rfl, rfl, tracked_init h₀⟩

theorem parseFrom_header (hLen : buf.length < 2 ^ 31) (hReady : Ready h₀ d ps) (hp : p ≤ buf.length)
    {n len : Nat} (hLong : LongBlob lib buf p n len) :
    ∃ ps', AtBlob h₀ (p + len) n d ps' ∧
      parseFrom lib buf 0 p ps = .error .outOfFuel ∧
      ∀ fuel, parseFrom lib buf (fuel + 1) p ps =
        if buf.length ≤ resumeAt (p + len) n then .error (.assertFailed "buffer overflow")
        else parseFrom lib buf fuel (resumeAt (p + len) n) ps' := by
  obtain ⟨ps', hExecute, hBlob⟩ := execute_header hLen hReady hp hLong
  have hBound := blobHead_le hp hLong.1
  refine ⟨ps', hBlob, ?_, fun fuel => ?_⟩
  · simp only [parseFrom, hExecute]
    rfl
  · simp only [parseFrom, hExecute]
    exact parseLoop_blob hBlob hLong.2.1 hBound.2 fuel

/-- A step that goes on. Only a long blob costs fuel, and anything else moves forward. -/
theorem parseFrom_go (hLen : buf.length < 2 ^ 31) (hEnds : endsInSpace buf = true)
    (hReady : Ready h₀ d ps) (hp : p ≤ buf.length) {t : Token D} {q : Nat} {e : Doc D}
    (hStep : step lib buf p d = .go t q e) :
    ∃ ps', Ready h₀ e ps' ∧ q ≤ buf.length ∧
      ((p < q ∧ ∀ fuel, parseFrom lib buf fuel p ps = parseFrom lib buf fuel q ps') ∨
        (parseFrom lib buf 0 p ps = .error .outOfFuel ∧
          ∀ fuel, parseFrom lib buf (fuel + 1) p ps = parseFrom lib buf fuel q ps')) := by
  by_cases hShort : ∀ n len, ¬ LongBlob lib buf p n len
  · obtain ⟨hMeets, hForward⟩ := execute_step hLen hEnds hReady hp hShort
    rw [hStep] at hMeets
    obtain ⟨hq, ps', hReady', hExecute⟩ := hMeets
    refine ⟨ps', hReady', hq, .inl ⟨hForward t q e hStep, fun fuel => ?_⟩⟩
    simp only [parseFrom, hExecute]
  · push Not at hShort
    obtain ⟨n, len, hLong⟩ := hShort
    obtain ⟨ps₁, hBlob, hZero, hSucc⟩ := parseFrom_header hLen hReady hp hLong
    have hBound := blobHead_le hp hLong.1
    simp only [step, hLong.1] at hStep
    have hOff : resumeAt (p + len) n < buf.length := by
      by_contra hOver
      simp [stepBlob, Nat.not_le.mpr hLong.2.2, Nat.not_lt.mp hOver] at hStep
    have hMeets := meets_blob lib hLen hBlob.cs hBlob.mark hBound.2 hBlob.tracked hLong.2.2 hOff
    rw [hStep] at hMeets
    obtain ⟨hq, ps', hReady', hExecute⟩ := hMeets
    refine ⟨ps', hReady', hq, .inr ⟨hZero, fun fuel => ?_⟩⟩
    rw [hSucc, if_neg (Nat.not_le.mpr hOff)]
    simp only [parseFrom, hExecute]

/-- A step that stops. -/
theorem parseFrom_stop (hLen : buf.length < 2 ^ 31) (hEnds : endsInSpace buf = true)
    (hReady : Ready h₀ d ps) (hp : p ≤ buf.length) {x : Ending D}
    (hStep : step lib buf p d = .stop x) (fuel : Nat) :
    Ends buf h₀ d (parseFrom lib buf (fuel + 2) p ps) x := by
  by_cases hShort : ∀ n len, ¬ LongBlob lib buf p n len
  · obtain ⟨hMeets, -⟩ := execute_step hLen hEnds hReady hp hShort
    rw [hStep] at hMeets
    exact ends_of_stops hMeets (fuel + 1)
  · push Not at hShort
    obtain ⟨n, len, hLong⟩ := hShort
    obtain ⟨ps₁, hBlob, -, hSucc⟩ := parseFrom_header hLen hReady hp hLong
    have hBound := blobHead_le hp hLong.1
    simp only [step, hLong.1] at hStep
    rw [hSucc]
    by_cases hOver : buf.length ≤ resumeAt (p + len) n
    · simp only [stepBlob, Nat.not_le.mpr hLong.2.2, hOver, if_false, if_true] at hStep
      cases hStep
      rw [if_pos hOver]
      rfl
    · have hMeets := meets_blob lib hLen hBlob.cs hBlob.mark hBound.2 hBlob.tracked hLong.2.2
        (Nat.not_le.mp hOver)
      rw [hStep] at hMeets
      rw [if_neg hOver]
      exact ends_of_stops hMeets fuel

theorem parseFrom_reads (hLen : buf.length < 2 ^ 31) (hEnds : endsInSpace buf = true)
    {ts : List (Token D)} {q : Nat} {e : Doc D} (hReads : Reads lib buf p d ts q e)
    (hReady : Ready h₀ d ps) (hp : p ≤ buf.length) :
    ∃ ps' k, Ready h₀ e ps' ∧ q ≤ buf.length ∧
      ∀ fuel, parseFrom lib buf (fuel + k) p ps = parseFrom lib buf fuel q ps' := by
  induction hReads generalizing ps with
  | nil => exact ⟨ps, 0, hReady, hp, fun _ => rfl⟩
  | cons head _ ih =>
    obtain ⟨ps₁, hReady₁, hq, hGo⟩ := parseFrom_go hLen hEnds hReady hp head
    obtain ⟨ps', k, hReady', hr, hRest⟩ := ih hReady₁ hq
    rcases hGo with ⟨-, hSame⟩ | ⟨-, hSucc⟩
    · exact ⟨ps', k, hReady', hr, fun fuel => by rw [hSame, hRest]⟩
    · exact ⟨ps', k + 1, hReady', hr, fun fuel => by rw [← Nat.add_assoc, hSucc, hRest]⟩

theorem Ends.ne_outOfFuel {r : Run (Parsed D)} {x : Ending D} (h : Ends buf h₀ d r x) :
    r ≠ .error .outOfFuel := by
  rintro rfl
  cases x with
  | ended | refused | closed =>
    obtain ⟨_, _, hOk, -⟩ := h
    cases hOk
  | lexError =>
    simp only [Ends] at h
    split at h
    · obtain ⟨_, _, hOk, -⟩ := h
      cases hOk
    · cases h
  | crashed | overrun => cases h

/-- A call whose reading stops comes to that ending. -/
theorem nodeParseSeq_stops (hLen : buf.length < 2 ^ 31) (hEnds : endsInSpace buf = true)
    (h₀ : Heap D) (hp : p ≤ buf.length) {ts : List (Token D)} {q : Nat} {x : Ending D}
    (hReads : Reads lib buf p [] ts q d) (hStop : step lib buf q d = .stop x) :
    ∃ r, Ends buf h₀ d r x ∧ Finishes (nodeParseSeq lib · h₀ 0 buf p) r := by
  obtain ⟨ps', k, hReady', hq, hSame⟩ := parseFrom_reads hLen hEnds hReads (ready_init h₀) hp
  have hStopped := parseFrom_stop hLen hEnds hReady' hq hStop 0
  refine ⟨_, hStopped, hStopped.ne_outOfFuel, 2 + k, ?_⟩
  simp only [nodeParseSeq_eq hEnds, ← hSame, Nat.zero_add]

/-- A reading without an end is a call that never returns. -/
theorem parseFrom_endless (hLen : buf.length < 2 ^ 31) (hEnds : endsInSpace buf = true)
    (hReady : Ready h₀ d ps) (hp : p ≤ buf.length)
    (hGo : ∀ ts q e, Reads lib buf p d ts q e → ∃ t r f, step lib buf q e = .go t r f) (fuel : Nat) :
    parseFrom lib buf fuel p ps = .error .outOfFuel := by
  -- Between two long blobs the offset grows, and at a long blob the fuel shrinks.
  induction fuel generalizing p d ps with
  | zero =>
    induction hMeasure : buf.length - p using Nat.strong_induction_on generalizing p d ps with
    | _ m ih =>
      obtain ⟨t, q, e, hStep⟩ := hGo [] p d (.nil p d)
      obtain ⟨ps', hReady', hq, ⟨hForward, hSame⟩ | ⟨hZero, -⟩⟩ :=
        parseFrom_go hLen hEnds hReady hp hStep
      · rw [hSame]
        exact ih (buf.length - q) (by omega) hReady' hq
          (fun ts r f hReads => hGo (t :: ts) r f (.cons hStep hReads)) rfl
      · exact hZero
  | succ fuel ihFuel =>
    induction hMeasure : buf.length - p using Nat.strong_induction_on generalizing p d ps with
    | _ m ih =>
      obtain ⟨t, q, e, hStep⟩ := hGo [] p d (.nil p d)
      have hGo' : ∀ ts r f, Reads lib buf q e ts r f → ∃ t r' f', step lib buf r f = .go t r' f' :=
        fun ts r f hReads => hGo (t :: ts) r f (.cons hStep hReads)
      obtain ⟨ps', hReady', hq, ⟨hForward, hSame⟩ | ⟨-, hSucc⟩⟩ :=
        parseFrom_go hLen hEnds hReady hp hStep
      · rw [hSame]
        exact ih (buf.length - q) (by omega) hReady' hq hGo' rfl
      · rw [hSucc]
        exact ihFuel hReady' hq hGo'

theorem parseLoop_stable (lib : DoubleLib D) (buf : Bytes) (ps : Parser D) :
    Stable (parseLoop lib buf · ps) := by
  intro fuel
  induction fuel generalizing ps with
  | zero => exact fun h => absurd rfl h
  | succ fuel ih =>
    intro h
    change parseLoop lib buf (fuel + 1) ps ≠ _ at h
    change parseLoop lib buf (fuel + 1 + 1) ps = parseLoop lib buf (fuel + 1) ps
    rw [parseLoop] at h ⊢
    conv_rhs => rw [parseLoop]
    split
    · rfl
    rename_i hFails
    split
    · rename_i hMore
      split
      · rfl
      rename_i hOff
      simp only [hFails, hMore, hOff, if_true, if_false] at h
      cases hExecute : stackishParserExecute lib ps buf (resumeOffset ps) with
      | error e => rfl
      | ok ps' =>
        rw [hExecute] at h
        exact ih ps' h
    · rfl

theorem nodeParseSeq_stable (lib : DoubleLib D) (heap : Heap D) (errno : Nat) (buf : Bytes)
    (start : Nat) : Stable (nodeParseSeq lib · heap errno buf start) := by
  intro fuel h
  simp only [nodeParseSeq] at h ⊢
  split
  · rename_i hCheck
    rw [if_pos hCheck] at h
    cases hExecute : stackishParserExecute lib (stackishParserInit heap errno) buf start with
    | error e => rfl
    | ok ps =>
      rw [hExecute] at h
      exact parseLoop_stable lib buf ps fuel h
  · rfl

end Parse

end Utu.Stackish
