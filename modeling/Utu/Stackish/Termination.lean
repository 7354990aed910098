import Utu.Stackish.Reading

/-!
# When the parser terminates

The loop of `Node_parse_seq` goes back to an earlier offset exactly when a blob
length makes the sum of offset and length pass the end of `size_t`. Otherwise
every entry of the scanner is behind the place where it stopped, and the call
returns.
-/

namespace Utu.Stackish
open LinkedForest
set_option autoImplicit false

section Heads
variable {D : Type} (lib : DoubleLib D)

/-- The parser each time the loop condition of `Node_parse_seq` is reached, for the first
`fuel` times, after a call of the scanner that came to `r`. -/
def loopHeads (buf : Bytes) : Nat → Run (Parser D) → List (Parser D)
  | fuel + 1, .ok ps =>
    ps :: if !parseFails ps && needsMore buf ps && resumeOffset ps < buf.length then
      loopHeads buf fuel (stackishParserExecute lib ps buf (resumeOffset ps)) else []
  | _, _ => []

/-- The loop heads of one call. -/
def parseHeads (fuel : Nat) (heap : Heap D) (errno : Nat) (buf : Bytes) (start : Nat) :
    List (Parser D) :=
  if endsInSpace buf && errno == 0 then
    loopHeads lib buf fuel (stackishParserExecute lib (stackishParserInit heap errno) buf start)
  else []

/-- The call comes to an end. -/
def Terminates (heap : Heap D) (errno : Nat) (buf : Bytes) (start : Nat) : Prop :=
  ∃ fuel, nodeParseSeq lib fuel heap errno buf start ≠ .error .outOfFuel

/-- The loop is always entered again behind the offset where the scanner stopped. -/
def Advances (heap : Heap D) (errno : Nat) (buf : Bytes) (start : Nat) : Prop :=
  ∀ fuel, ∀ ps ∈ parseHeads lib fuel heap errno buf start,
    parseFails ps = false → needsMore buf ps = true → ps.nread < resumeOffset ps

/-- No blob length that the reading comes to leads past the end of `size_t`. -/
def NoWrap (buf : Bytes) (start : Nat) : Prop :=
  ∀ ts p d n len, Reads lib buf start [] ts p d → lex lib (buf.drop p) = .blobHead n len →
    n < sizeMod → p + len + n < sizeMod

end Heads

section Loop
variable {D : Type} {lib : DoubleLib D} {buf : Bytes} {h₀ : Heap D} {d : Doc D} {ps : Parser D}
  {p : Nat}

theorem loopHeads_ok (fuel : Nat) {r : Run (Parser D)} (h : r = .ok ps) :
    loopHeads lib buf (fuel + 1) r =
      ps :: if !parseFails ps && needsMore buf ps && resumeOffset ps < buf.length then
        loopHeads lib buf fuel (stackishParserExecute lib ps buf (resumeOffset ps)) else [] := by
  rw [h, loopHeads]

theorem loopHeads_blob {start n : Nat} (h : AtBlob h₀ start n d ps) (hn : 0 < n)
    (hStart : start ≤ buf.length) (fuel : Nat) {r : Run (Parser D)} (hr : r = .ok ps) :
    loopHeads lib buf (fuel + 1) r =
      ps :: if resumeAt start n < buf.length then
        loopHeads lib buf fuel (stackishParserExecute lib ps buf (resumeAt start n)) else [] := by
  rw [loopHeads_ok fuel hr]
  simp [h.parseFails_eq, h.needsMore_eq hn hStart, h.resumeOffset_eq]

/-- A call of the scanner in which reading stops leaves nothing to resume. -/
theorem loopHeads_stops {r : Run (Parser D)} {x : Ending D} (h : Stops buf h₀ d r x) {fuel : Nat}
    {head : Parser D} (hMem : head ∈ loopHeads lib buf fuel r) (hFails : parseFails head = false) :
    needsMore buf head = false := by
  cases fuel with
  | zero => simp [loopHeads] at hMem
  | succ fuel =>
    have hSettled : ∀ ps, r = .ok ps → Settled ps → needsMore buf head = false := by
      intro ps hr hSettled
      rw [loopHeads_ok fuel hr] at hMem
      simp only [hSettled.needsMore_eq, Bool.and_false, Bool.false_and, Bool.false_eq_true, if_false,
        List.mem_singleton] at hMem
      rw [hMem]
      exact hSettled.needsMore_eq
    cases x with
    | ended | refused | closed =>
      obtain ⟨ps, hr, hs, -⟩ := h
      exact hSettled ps hr hs
    | lexError =>
      obtain ⟨ps, hr, hFail, -⟩ := h
      rw [loopHeads_ok fuel hr] at hMem
      simp only [hFail, Bool.not_true, Bool.false_and, Bool.false_eq_true, if_false,
        List.mem_singleton] at hMem
      rw [hMem, hFail] at hFails
      cases hFails
    | crashed =>
      cases h
      simp [loopHeads] at hMem
    | overrun => exact h.elim

/-- Every loop head with a blob to come stands at a long blob of the reading. -/
theorem loopHeads_inv (hLen : buf.length < 2 ^ 31) (hEnds : endsInSpace buf = true)
    (hReady : Ready h₀ d ps) (hp : p ≤ buf.length) {fuel : Nat} {head : Parser D}
    (hMem : head ∈ loopHeads lib buf fuel (stackishParserExecute lib ps buf p))
    (hFails : parseFails head = false) (hMore : needsMore buf head = true) :
    ∃ ts q e n len, Reads lib buf p d ts q e ∧ q ≤ buf.length ∧ LongBlob lib buf q n len ∧
      AtBlob h₀ (q + len) n e head := by
  induction fuel generalizing p d ps with
  | zero => simp [loopHeads] at hMem
  | succ fuel ihFuel =>
    induction hMeasure : buf.length - p using Nat.strong_induction_on generalizing p d ps with
    | _ m ih =>
      by_cases hShort : ∀ n len, ¬ LongBlob lib buf p n len
      · obtain ⟨hMeets, hForward⟩ := execute_step hLen hEnds hReady hp hShort
        cases hStep : step lib buf p d with
        | stop x =>
          rw [hStep] at hMeets
          rw [loopHeads_stops hMeets hMem hFails] at hMore
          cases hMore
        | go t q e =>
          rw [hStep] at hMeets
          obtain ⟨hq, ps', hReady', hExecute⟩ := hMeets
          rw [hExecute] at hMem
          have hLt := hForward t q e hStep
          obtain ⟨ts, q', e', n, len, hReads, hFound⟩ := ih _ (by omega) hReady' hq hMem rfl
          exact ⟨t :: ts, q', e', n, len, .cons hStep hReads, hFound⟩
      · push Not at hShort
        obtain ⟨n, len, hLong⟩ := hShort
        obtain ⟨ps₁, hExecute, hBlob⟩ := execute_header hLen hReady hp hLong
        have hBound := blobHead_le hp hLong.1
        rw [loopHeads_blob hBlob hLong.2.1 hBound.2 fuel hExecute] at hMem
        rcases List.mem_cons.mp hMem with rfl | hMem
        · exact ⟨[], p, d, n, len, .nil p d, hp, hLong, hBlob⟩
        split at hMem
        · rename_i hOff
          have hMeets := meets_blob lib hLen hBlob.cs hBlob.mark hBound.2 hBlob.tracked hLong.2.2 hOff
          have hStepBlob : step lib buf p d = stepBlob buf (p + len) n d := by
            simp only [step, hLong.1]
          cases hStep : stepBlob buf (p + len) n d with
          | stop x =>
            rw [hStep] at hMeets
            rw [loopHeads_stops hMeets hMem hFails] at hMore
            cases hMore
          | go t q e =>
            rw [hStep] at hMeets
            obtain ⟨hq, ps', hReady', hExecute'⟩ := hMeets
            rw [hExecute'] at hMem
            obtain ⟨ts, q', e', n', len', hReads, hFound⟩ := ihFuel hReady' hq hMem
            exact ⟨t :: ts, q', e', n', len', .cons (hStepBlob.trans hStep) hReads, hFound⟩
        · simp at hMem

/-- The loop heads behind a reading are loop heads of the call. -/
theorem loopHeads_reads (hLen : buf.length < 2 ^ 31) (hEnds : endsInSpace buf = true)
    {ts : List (Token D)} {q : Nat} {e : Doc D} (hReads : Reads lib buf p d ts q e)
    (hReady : Ready h₀ d ps) (hp : p ≤ buf.length) :
    ∃ ps' k, Ready h₀ e ps' ∧ q ≤ buf.length ∧
      ∀ fuel, loopHeads lib buf fuel (stackishParserExecute lib ps' buf q) ⊆
        loopHeads lib buf (fuel + k) (stackishParserExecute lib ps buf p) := by
  induction hReads generalizing ps with
  | nil => exact ⟨ps, 0, hReady, hp, fun _ => List.Subset.refl _⟩
  | @cons p q r d e f t ts head _ ih =>
    by_cases hShort : ∀ n len, ¬ LongBlob lib buf p n len
    · obtain ⟨hMeets, -⟩ := execute_step hLen hEnds hReady hp hShort
      rw [head] at hMeets
      obtain ⟨hq, ps₁, hReady₁, hExecute⟩ := hMeets
      obtain ⟨ps', k, hReady', hr, hSub⟩ := ih hReady₁ hq
      exact ⟨ps', k, hReady', hr, fun fuel => by rw [hExecute]; exact hSub fuel⟩
    · push Not at hShort
      obtain ⟨n, len, hLong⟩ := hShort
      obtain ⟨ps₀, hExecute, hBlob⟩ := execute_header hLen hReady hp hLong
      have hBound := blobHead_le hp hLong.1
      simp only [step, hLong.1] at head
      have hOff : resumeAt (p + len) n < buf.length := by
        by_contra hOver
        simp [stepBlob, Nat.not_le.mpr hLong.2.2, Nat.not_lt.mp hOver] at head
      have hMeets := meets_blob lib hLen hBlob.cs hBlob.mark hBound.2 hBlob.tracked hLong.2.2 hOff
      rw [head] at hMeets
      obtain ⟨hq, ps₁, hReady₁, hExecute₁⟩ := hMeets
      obtain ⟨ps', k, hReady', hr, hSub⟩ := ih hReady₁ hq
      refine ⟨ps', k + 1, hReady', hr, fun fuel => ?_⟩
      rw [← Nat.add_assoc, loopHeads_blob hBlob hLong.2.1 hBound.2 _ hExecute, if_pos hOff, hExecute₁]
      exact List.subset_cons_of_subset _ (hSub fuel)

/-- Without a wrap every step moves forward, so the reading stops. -/
theorem exists_stop (hLen : buf.length < 2 ^ 31) (hEnds : endsInSpace buf = true)
    (hReady : Ready h₀ d ps) (hp : p ≤ buf.length)
    (hNoWrap : ∀ ts q e n len, Reads lib buf p d ts q e → lex lib (buf.drop q) = .blobHead n len →
      n < sizeMod → q + len + n < sizeMod) :
    ∃ ts q e x, Reads lib buf p d ts q e ∧ step lib buf q e = .stop x := by
  induction hMeasure : buf.length - p using Nat.strong_induction_on generalizing p d ps with
  | _ m ih =>
    cases hStep : step lib buf p d with
    | stop x => exact ⟨[], p, d, x, .nil p d, hStep⟩
    | go t q e =>
      obtain ⟨ps', hReady', hq, -⟩ := parseFrom_go hLen hEnds hReady hp hStep
      have hForward : p < q := by
        by_cases hShort : ∀ n len, ¬ LongBlob lib buf p n len
        · exact (execute_step hLen hEnds hReady hp hShort).2 t q e hStep
        · push Not at hShort
          obtain ⟨n, len, hLex, -, hn⟩ := hShort
          have hSum := hNoWrap [] p d n len (.nil p d) hLex hn
          simp only [step, hLex, stepBlob, resumeAt, Nat.not_le.mpr hn, Nat.mod_eq_of_lt hSum,
            if_false] at hStep
          split at hStep
          · cases hStep
          split at hStep
          · simp only [stepToken] at hStep
            split at hStep <;> cases hStep
            omega
          · cases hStep
      obtain ⟨ts, q', e', x, hReads, hStop⟩ := ih _ (by omega) hReady' hq
        (fun ts r f n len hReads => hNoWrap (t :: ts) r f n len (.cons hStep hReads)) rfl
      exact ⟨t :: ts, q', e', x, .cons hStep hReads, hStop⟩

end Loop

section Claim
variable {D : Type}

/-- A call terminates, and every entry of the scanner is behind the last one, exactly when no
blob length that it reads wraps around. -/
theorem nodeParseSeq_progress_iff (lib : DoubleLib D) (heap : Heap D) (errno : Nat) (buf : Bytes)
    (start : Nat) (hLen : buf.length < 2 ^ 31) (hStart : start ≤ buf.length) :
    (Terminates lib heap errno buf start ∧ Advances lib heap errno buf start) ↔
      (endsInSpace buf = true → errno = 0 → NoWrap lib buf start) := by
  constructor
  · rintro ⟨-, hAdvances⟩ hEnds rfl ts p d n len hReads hLex hn
    by_contra hWrap
    obtain ⟨ps', k, hReady, hp, hSub⟩ :=
      loopHeads_reads hLen hEnds hReads (ready_init heap) hStart
    have hBound := blobHead_le hp hLex
    have hPos : 0 < n := by
      simp only [sizeMod] at hWrap
      omega
    obtain ⟨head, hExecute, hBlob⟩ := execute_header hLen hReady hp ⟨hLex, hPos, hn⟩
    have hMem : head ∈ parseHeads lib (1 + k) heap 0 buf start := by
      simp only [parseHeads, hEnds]
      refine hSub 1 ?_
      rw [loopHeads_ok 0 hExecute]
      exact List.mem_cons_self
    have hNext := hAdvances _ head hMem hBlob.parseFails_eq (hBlob.needsMore_eq hPos hBound.2)
    have hRead := hBlob.nread
    rw [hBlob.resumeOffset_eq] at hNext
    simp only [resumeAt, sizeMod] at hNext hWrap hn
    omega
  · intro hNoWrap
    by_cases hCheck : endsInSpace buf = true ∧ errno = 0
    · obtain ⟨hEnds, rfl⟩ := hCheck
      replace hNoWrap := hNoWrap hEnds rfl
      constructor
      · obtain ⟨ts, q, d, x, hReads, hStop⟩ := exists_stop hLen hEnds (ready_init heap) hStart hNoWrap
        obtain ⟨r, -, hr, fuel, rfl⟩ := nodeParseSeq_stops hLen hEnds heap hStart hReads hStop
        exact ⟨fuel, hr⟩
      · intro fuel head hMem hFails hMore
        simp only [parseHeads, hEnds] at hMem
        obtain ⟨ts, q, d, n, len, hReads, hq, hLong, hBlob⟩ :=
          loopHeads_inv hLen hEnds (ready_init heap) hStart hMem hFails hMore
        have hSum := hNoWrap ts q d n len hReads hLong.1 hLong.2.2
        have hRead := hBlob.nread
        rw [hBlob.resumeOffset_eq, resumeAt, Nat.mod_eq_of_lt hSum]
        have hPos := hLong.2.1
        omega
    · have hFalse : (endsInSpace buf && errno == 0) = false := by
        simpa using hCheck
      constructor
      · refine ⟨0, ?_⟩
        simp only [nodeParseSeq, hFalse, Bool.false_eq_true, if_false]
        intro h
        cases h
      · intro fuel head hMem
        simp [parseHeads, hFalse] at hMem

end Claim

-- [ '1:a' ]
def blobBuffer : Bytes := [91, 32, 39, 49, 58, 97, 39, 32, 93, 32]

theorem nodeParseSeq_progress_blobBuffer :
    Terminates noDoubles [] 0 blobBuffer 0 ∧ Advances noDoubles [] 0 blobBuffer 0 := by
  refine (nodeParseSeq_progress_iff noDoubles [] 0 blobBuffer 0 (by decide) (by decide)).mpr ?_
  intro _ _ ts p d n len hReads hLex _
  rcases hReads.of_go rfl with ⟨rfl, rfl⟩ | ⟨us, hReads⟩
  · cases hLex
  rcases hReads.of_go rfl with ⟨rfl, rfl⟩ | ⟨us, hReads⟩
  · cases hLex
    decide
  obtain ⟨rfl, rfl⟩ := hReads.of_stop rfl
  cases hLex

-- [ '0:' '18446744073709551592:
def wrapBuffer : Bytes :=
  [91, 32, 39, 48, 58, 39, 32, 39, 49, 56, 52, 52, 54, 55, 52, 52, 48, 55, 51, 55, 48, 57, 53, 53,
    49, 53, 57, 50, 58, 32, 10]

/-- The second length leads from behind its colon back to the quote of the first blob. -/
theorem step_wrapBuffer (kids : Tree Unit) :
    step noDoubles wrapBuffer 6 [kids] =
      .go (.blob none) 6 [.node ⟨none, .blob none⟩ .nil kids] := rfl

theorem reads_wrapBuffer {p q : Nat} {d e : Doc Unit} {ts : List (Token Unit)}
    (hReads : Reads noDoubles wrapBuffer p d ts q e)
    (hFrom : (p = 0 ∧ d = []) ∨ (p = 1 ∧ d = [.nil]) ∨ p = 6 ∧ ∃ kids, d = [kids]) :
    (q = 0 ∧ e = []) ∨ (q = 1 ∧ e = [.nil]) ∨ q = 6 ∧ ∃ kids, e = [kids] := by
  induction hReads with
  | nil => exact hFrom
  | cons head _ ih =>
    apply ih
    rcases hFrom with ⟨rfl, rfl⟩ | ⟨rfl, rfl⟩ | ⟨rfl, kids, rfl⟩
    · cases head
      exact .inr (.inl ⟨rfl, rfl⟩)
    · cases head
      exact .inr (.inr ⟨rfl, _, rfl⟩)
    · rw [step_wrapBuffer] at head
      cases head
      exact .inr (.inr ⟨rfl, _, rfl⟩)

/-- A length of `2^64 - 24` makes the parser push empty blobs for ever. -/
theorem nodeParseSeq_wrapBuffer_endless :
    wrapBuffer.length < 2 ^ 31 ∧ ¬ Terminates noDoubles [] 0 wrapBuffer 0 := by
  refine ⟨by decide, ?_⟩
  rintro ⟨fuel, hRun⟩
  apply hRun
  rw [nodeParseSeq_eq (by decide)]
  refine parseFrom_endless (by decide) (by decide) (ready_init []) (by decide) ?_ fuel
  intro ts q e hReads
  rcases reads_wrapBuffer hReads (.inl ⟨rfl, rfl⟩) with ⟨rfl, rfl⟩ | ⟨rfl, rfl⟩ | ⟨rfl, kids, rfl⟩
  · exact ⟨_, _, _, rfl⟩
  · exact ⟨_, _, _, rfl⟩
  · exact ⟨_, _, _, step_wrapBuffer kids⟩

end Utu.Stackish
