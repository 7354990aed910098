import Utu.Stackish.Print
import Utu.Stackish.Reading

/-!
# Reading printed tokens back

Every printed token is read back as itself whatever follows its blank, and the
reader stands on that blank behind it. So the text of a token list is read as a
prefix of the list, and as all of it while the tokens can be applied.
-/

namespace Utu.Stackish
open LinkedForest
set_option autoImplicit false

variable {D : Type}

/-- The tokens that read back as they are written. -/
def Printable : Token D → Prop
  | .number n => n ≠ none
  | .float _ => False
  | .string s => 34 ∉ s
  | .blob s => s ≠ none
  | .start => True
  | .word w => isWord w = true
  | .group => True
  | .attrib a => attribName a

section Lex
variable {lib : DoubleLib D}

theorem Lexed.shift_zero (l : Lexed D) : l.shift 0 = l := by
  cases l <;> simp [Lexed.shift]

theorem Lexed.shift_shift (l : Lexed D) (j k : Nat) : (l.shift j).shift k = l.shift (k + j) := by
  cases l <;> simp [Lexed.shift, Nat.add_assoc]

theorem lex_blanks (lib : DoubleLib D) {blanks : Bytes} (h : ∀ c ∈ blanks, isSpace c = true) (rest : Bytes) :
    lex lib (blanks ++ rest) = (lex lib rest).shift blanks.length := by
  induction blanks with
  | nil => rw [List.nil_append, List.length_nil, Lexed.shift_zero]
  | cons c blanks ih =>
    rw [List.cons_append, lex, if_pos (h c List.mem_cons_self),
      ih fun b hb => h b (List.mem_cons_of_mem c hb), Lexed.shift_shift, List.length_cons,
      Nat.add_comm]

theorem lex_digit {c : UInt8} (hc : Decimal.isDigit c = true) (rest : Bytes) :
    lex lib (c :: rest) = lexNumber lib (c :: rest) := by
  have hNe : ∀ b : UInt8, Decimal.isDigit b = false → c ≠ b := by
    rintro b hb rfl
    rw [hc] at hb
    cases hb
  rw [lex, if_neg (by simp [isSpace_of_isDigit hc]), if_neg (hNe 34 (by decide)),
    if_neg (hNe 39 (by decide)), if_neg (not_or.mpr ⟨hNe 43 (by decide), hNe 45 (by decide)⟩),
    if_neg (hNe 64 (by decide)), if_neg (hNe 91 (by decide)), if_neg (hNe 93 (by decide)), if_pos hc]

theorem isAlpha_iff (c : UInt8) : isAlpha c = true ↔
    (65 ≤ c.toNat ∧ c.toNat ≤ 90) ∨ (97 ≤ c.toNat ∧ c.toNat ≤ 122) := by
  simp [isAlpha, UInt8.le_iff_toNat_le]

theorem lex_alpha {c : UInt8} (hc : isAlpha c = true) (rest : Bytes) :
    lex lib (c :: rest) = lexWord (c :: rest) := by
  have hNe : ∀ b : UInt8, isAlpha b = false → c ≠ b := by
    rintro b hb rfl
    rw [hc] at hb
    cases hb
  have hRange := (isAlpha_iff c).mp hc
  have hSpace : isSpace c = false := by
    simp only [isSpace, Bool.or_eq_false_iff, beq_eq_false_iff_ne, Bool.and_eq_false_iff,
      decide_eq_false_iff_not, UInt8.le_iff_toNat_le]
    exact ⟨hNe 32 (by decide), .inr (by simp; omega)⟩
  have hDigit : ¬ Decimal.isDigit c = true := by
    rw [Decimal.isDigit_iff]
    omega
  rw [lex, if_neg (by simp [hSpace]), if_neg (hNe 34 (by decide)), if_neg (hNe 39 (by decide)),
    if_neg (not_or.mpr ⟨hNe 43 (by decide), hNe 45 (by decide)⟩), if_neg (hNe 64 (by decide)),
    if_neg (hNe 91 (by decide)), if_neg (hNe 93 (by decide)), if_neg hDigit, if_pos hc]

theorem numberOf_print (n : UInt64) : numberOf (Decimal.print n.toNat) = some n := by
  have hSmall : ¬ sizeMod ≤ n.toNat := Nat.not_le.mpr n.toNat_lt
  simp [numberOf, hSmall]

theorem lex_number (n : UInt64) (rest : Bytes) :
    lex lib (Decimal.print n.toNat ++ 32 :: rest) =
      .token (.number (some n)) (Decimal.print n.toNat).length (Decimal.print n.toNat).length := by
  have hAll := Decimal.isDigit_of_mem_print n.toNat
  have hTake : (Decimal.print n.toNat ++ 32 :: rest).takeWhile Decimal.isDigit = Decimal.print n.toNat :=
    takeWhile_append_stop hAll fun c hc => by cases hc; decide
  have hLex : lex lib (Decimal.print n.toNat ++ 32 :: rest) =
      lexNumber lib (Decimal.print n.toNat ++ 32 :: rest) := by
    obtain ⟨c, tail, hPrint⟩ := List.exists_cons_of_ne_nil (Decimal.print_ne_nil n.toNat)
    rw [hPrint] at hAll ⊢
    exact lex_digit (hAll c List.mem_cons_self) _
  rw [hLex, lexNumber, hTake, List.drop_left, numberOf_print]
  rfl

theorem lex_word {w : Bytes} (hw : isWord w = true) (rest : Bytes) :
    lex lib (w ++ 32 :: rest) = .token (.word w) w.length w.length := by
  cases w with
  | nil => cases hw
  | cons c w =>
    simp only [isWord, Bool.and_eq_true, List.all_eq_true] at hw
    have hAll : ∀ b ∈ c :: w, isWordChar b = true := by
      intro b hb
      rcases List.mem_cons.mp hb with rfl | hb
      · simp [isWordChar, hw.1]
      · exact hw.2 b hb
    have hTake : (c :: w ++ 32 :: rest).takeWhile isWordChar = c :: w :=
      takeWhile_append_stop hAll fun b hb => by cases hb; decide
    rw [List.cons_append, lex_alpha hw.1, ← List.cons_append, lexWord, hTake, List.drop_left]
    rfl

theorem lex_attrib {w : Bytes} (hw : isWord w = true) (rest : Bytes) :
    lex lib (64 :: w ++ 32 :: rest) = .token (.attrib (64 :: w)) (w.length + 1) (w.length + 1) := by
  cases w with
  | nil => cases hw
  | cons c w =>
    simp only [isWord, Bool.and_eq_true, List.all_eq_true] at hw
    have hAll : ∀ b ∈ c :: w, isWordChar b = true := by
      intro b hb
      rcases List.mem_cons.mp hb with rfl | hb
      · simp [isWordChar, hw.1]
      · exact hw.2 b hb
    have hTake : (c :: (w ++ 32 :: rest)).takeWhile isWordChar = c :: w :=
      takeWhile_append_stop (l := c :: w) hAll fun b hb => by cases hb; decide
    have hDrop : (c :: (w ++ 32 :: rest)).drop (c :: w).length = 32 :: rest := by
      rw [← List.cons_append, List.drop_left]
    change lexAttrib (64 :: c :: (w ++ 32 :: rest)) = _
    simp only [lexAttrib, List.tail_cons, hw.1, if_true, hTake, hDrop]
    rfl

theorem lex_string {s : Bytes} (hs : 34 ∉ s) (rest : Bytes) :
    lex lib (34 :: s ++ [34] ++ 32 :: rest) = .token (.string s) (s.length + 2) (s.length + 1) := by
  have hTake : (s ++ 34 :: 32 :: rest).takeWhile (fun c => decide (c ≠ 34)) = s := by
    refine takeWhile_append_stop (fun c hc => ?_) fun c hc => by cases hc; decide
    simpa using ne_of_mem_of_not_mem hc hs
  have hText : 34 :: s ++ [34] ++ 32 :: rest = 34 :: (s ++ 34 :: 32 :: rest) := by simp
  rw [hText]
  change lexString (34 :: (s ++ 34 :: 32 :: rest)) = _
  rw [lexString, List.tail_cons, hTake, List.drop_left]
  rfl

theorem lex_blob (b rest : Bytes) :
    lex lib (39 :: Decimal.print b.length ++ [58] ++ rest) =
      .blobHead b.length ((Decimal.print b.length).length + 2) := by
  have hTake : (Decimal.print b.length ++ 58 :: rest).takeWhile Decimal.isDigit =
      Decimal.print b.length :=
    takeWhile_append_stop (Decimal.isDigit_of_mem_print _) fun c hc => by cases hc; decide
  have hText : 39 :: Decimal.print b.length ++ [58] ++ rest =
      39 :: (Decimal.print b.length ++ 58 :: rest) := by simp
  rw [hText]
  change lexBlob (39 :: (Decimal.print b.length ++ 58 :: rest)) = _
  rw [lexBlob, List.tail_cons, hTake, List.drop_left, if_neg (Decimal.print_ne_nil _),
    Decimal.value_print]
  rfl

end Lex

section Read
variable {lib : DoubleLib D} {buf : Bytes} {p : Nat}

/-- A printed blob: the reader jumps over its bytes to the closing quote. -/
theorem stepBlob_printed (hLen : buf.length < 2 ^ 31) {b rest : Bytes}
    (hAt : At buf p (39 :: Decimal.print b.length ++ [58] ++ (b ++ 39 :: rest))) (d : Doc D) :
    stepBlob buf (p + ((Decimal.print b.length).length + 2)) b.length d =
      stepToken (.blob (some b)) (p + (blobText (some b)).length)
        (p + ((Decimal.print b.length).length + 2) + b.length) d := by
  have hHead : ((39 : UInt8) :: Decimal.print b.length ++ [58]).length =
      (Decimal.print b.length).length + 2 := by simp
  have hStart := hAt.append (39 :: Decimal.print b.length ++ [58])
  rw [hHead] at hStart
  have hQuote := hStart.append b
  have hSize := hQuote.length
  have hLength : (blobText (some b)).length = (Decimal.print b.length).length + 2 + b.length + 1 := by
    simp only [blobText, blength, Option.getD_some, List.length_append, List.length_cons,
      List.length_nil]
  have hSum : resumeAt (p + ((Decimal.print b.length).length + 2)) b.length =
      p + ((Decimal.print b.length).length + 2) + b.length :=
    Nat.mod_eq_of_lt (by simp only [sizeMod]; omega)
  have hByte : buf[p + ((Decimal.print b.length).length + 2) + b.length]? = some 39 := by
    rw [← List.head?_drop, hQuote.drop]
    rfl
  have hSlice : blobBetween buf (p + ((Decimal.print b.length).length + 2))
      (p + ((Decimal.print b.length).length + 2) + b.length) = some b := by
    rw [blobBetween, if_pos (Nat.le_add_right _ _), hStart.drop, Nat.add_sub_cancel_left, List.take_left]
  have hSmall : ¬ sizeMod ≤ b.length := by
    simp only [sizeMod]
    omega
  have hInside : ¬ buf.length ≤ p + ((Decimal.print b.length).length + 2) + b.length := by
    simp only [List.length_cons] at hSize
    omega
  simp only [stepBlob, hSum, hSmall, hInside, hByte, hSlice, if_true, if_false]
  congr 1
  omega

/-- A printed token behind blanks is read as itself, up to the blank behind it. -/
theorem step_printed (lib : DoubleLib D) (hLen : buf.length < 2 ^ 31) {blanks rest : Bytes}
    (hBlanks : ∀ c ∈ blanks, isSpace c = true) {t : Token D} (ht : Printable t)
    (hAt : At buf p (blanks ++ (tokenText t ++ 32 :: rest))) :
    At buf (p + (blanks.length + (tokenText t).length)) (32 :: rest) ∧
      ∃ stop, ∀ d, step lib buf p d =
        stepToken t (p + (blanks.length + (tokenText t).length)) stop d := by
  have hAtText := hAt.append blanks
  have hNext := hAtText.append (tokenText t)
  rw [Nat.add_assoc] at hNext
  refine ⟨hNext, ?_⟩
  have hToken : ∀ stop, lex lib (tokenText t ++ 32 :: rest) = .token t (tokenText t).length stop →
      ∃ stop, ∀ d, step lib buf p d =
        stepToken t (p + (blanks.length + (tokenText t).length)) stop d := by
    intro stop hLex
    refine ⟨p + (blanks.length + stop), fun d => ?_⟩
    simp only [step, hAt.drop, lex_blanks lib hBlanks, hLex, Lexed.shift]
  cases t with
  | number n =>
    obtain ⟨n, rfl⟩ := Option.ne_none_iff_exists'.mp ht
    exact hToken _ (lex_number n rest)
  | float x => exact ht.elim
  | string s => exact hToken (s.length + 1) ((lex_string ht rest).trans (by simp [tokenText]))
  | start => exact hToken 0 rfl
  | group => exact hToken 0 rfl
  | word w => exact hToken _ (lex_word ht rest)
  | attrib a =>
    obtain ⟨w, hw, rfl⟩ := ht
    exact hToken _ (lex_attrib hw rest)
  | blob s =>
    obtain ⟨b, rfl⟩ := Option.ne_none_iff_exists'.mp ht
    have hText : tokenText (.blob (some b) : Token D) ++ 32 :: rest =
        39 :: Decimal.print b.length ++ [58] ++ (b ++ 39 :: 32 :: rest) := by
      simp [tokenText, blobText, blength]
    rw [hText] at hAtText
    refine ⟨p + blanks.length + ((Decimal.print b.length).length + 2) + b.length, fun d => ?_⟩
    simp only [step, hAt.drop, lex_blanks lib hBlanks, hText, lex_blob, Lexed.shift, ← Nat.add_assoc]
    exact stepBlob_printed hLen hAtText d

theorem step_blanks {blanks : Bytes} (hBlanks : ∀ c ∈ blanks, isSpace c = true)
    (hAt : At buf p blanks) (d : Doc D) : step lib buf p d = .stop .ended := by
  have hLex : lex lib blanks = .done := by
    have hEmpty := lex_blanks lib hBlanks []
    rw [List.append_nil] at hEmpty
    rw [hEmpty]
    rfl
  simp only [step, hAt.drop, hLex]

/-- Apply a token list, as long as every token goes on. -/
def applyAll : List (Token D) → Doc D → Option (Doc D)
  | [], d => some d
  | t :: ts, d =>
    match applyToken t d with
    | .next e => applyAll ts e
    | _ => none

theorem applyAll_append {ts us : List (Token D)} {d e f : Doc D} (h : applyAll ts d = some e)
    (h' : applyAll us e = some f) : applyAll (ts ++ us) d = some f := by
  induction ts generalizing d with
  | nil =>
    cases h
    exact h'
  | cons t ts ih =>
    simp only [List.cons_append, applyAll] at h ⊢
    split at h
    · exact ih h
    · cases h

/-- The text of a token list is read as the list. -/
theorem reads_text (lib : DoubleLib D) (hLen : buf.length < 2 ^ 31) {ts : List (Token D)}
    (hts : ∀ t ∈ ts, Printable t) {blanks tail : Bytes} (hBlanks : ∀ c ∈ blanks, isSpace c = true)
    (hAt : At buf p (blanks ++ (text ts ++ tail))) {d e : Doc D} (hApply : applyAll ts d = some e) :
    ∃ q blanks', Reads lib buf p d ts q e ∧ (∀ c ∈ blanks', isSpace c = true) ∧
      At buf q (blanks' ++ tail) := by
  induction ts generalizing p blanks d with
  | nil =>
    obtain rfl : d = e := Option.some.inj hApply
    exact ⟨p, blanks, .nil p d, hBlanks, hAt⟩
  | cons t ts ih =>
    have hText : text (t :: ts) ++ tail = tokenText t ++ 32 :: (text ts ++ tail) := by simp
    rw [hText] at hAt
    obtain ⟨hNext, stop, hStep⟩ := step_printed lib hLen hBlanks (hts t List.mem_cons_self) hAt
    simp only [applyAll] at hApply
    split at hApply
    · rename_i f hf
      have hBlank : ∀ c ∈ [(32 : UInt8)], isSpace c = true := by simp [isSpace]
      obtain ⟨q, blanks', hReads, hBlanks', hAt'⟩ :=
        ih (fun u hu => hts u (List.mem_cons_of_mem t hu)) hBlank hNext hApply
      refine ⟨q, blanks', .cons ?_ hReads, hBlanks', hAt'⟩
      rw [hStep d, stepToken, hf]
    · cases hApply

/-- Whatever is read from the text of a token list is a prefix of it. -/
theorem reads_text_prefix (hLen : buf.length < 2 ^ 31) {ts : List (Token D)}
    (hts : ∀ t ∈ ts, Printable t) {blanks tail : Bytes} (hBlanks : ∀ c ∈ blanks, isSpace c = true)
    (hTail : ∀ c ∈ tail, isSpace c = true) (hAt : At buf p (blanks ++ (text ts ++ tail)))
    {us : List (Token D)} {q : Nat} {d e : Doc D} (hReads : Reads lib buf p d us q e) : us <+: ts := by
  induction us generalizing p blanks d ts with
  | nil => exact List.nil_prefix
  | cons u us ih =>
    cases hReads with
    | cons head rest =>
      cases ts with
      | nil =>
        have hAll : ∀ c ∈ blanks ++ tail, isSpace c = true := by
          simpa [or_imp, forall_and] using ⟨hBlanks, hTail⟩
        rw [step_blanks hAll hAt] at head
        cases head
      | cons t ts =>
        have hText : text (t :: ts) ++ tail = tokenText t ++ 32 :: (text ts ++ tail) := by simp
        rw [hText] at hAt
        obtain ⟨hNext, stop, hStep⟩ := step_printed lib hLen hBlanks (hts t List.mem_cons_self) hAt
        have hBlank : ∀ c ∈ [(32 : UInt8)], isSpace c = true := by simp [isSpace]
        rw [hStep, stepToken] at head
        cases hApply : applyToken t d with
        | next f =>
          rw [hApply] at head
          obtain ⟨rfl, rfl, rfl⟩ := Step.go.inj head
          rw [List.cons_prefix_cons]
          exact ⟨rfl, ih (fun u hu => hts u (List.mem_cons_of_mem _ hu)) hBlank hNext rest⟩
        | refused | closed | crashed =>
          rw [hApply] at head
          cases head

/-- Inside an open group that has a child every printed token goes on. -/
theorem applyToken_printable {t : Token D} (ht : Printable t) (d : NodeData D) (k : Tree D) (outer : Doc D) :
    ∃ e, applyToken t (.node d .nil .nil :: k :: outer) = .next e := by
  cases t with
  | number n =>
    obtain ⟨n, rfl⟩ := Option.ne_none_iff_exists'.mp ht
    exact ⟨_, rfl⟩
  | float x => exact ht.elim
  | string | blob | start | word | group | attrib => exact ⟨_, rfl⟩

/-- A text is the text of one token list. -/
theorem text_injective (lib : DoubleLib D) {ts us : List (Token D)} (hts : ∀ t ∈ ts, Printable t)
    (hus : ∀ u ∈ us, Printable u) (hLen : (text ts).length < 2 ^ 31) (h : text ts = text us) : ts = us := by
  induction ts generalizing us with
  | nil =>
    cases us with
    | nil => rfl
    | cons u us => simp at h
  | cons t ts ih =>
    cases us with
    | nil => simp at h
    | cons u us =>
      have hSplit : ∀ (t : Token D) ts, text (t :: ts) = [] ++ (tokenText t ++ 32 :: text ts) := by simp
      have ht := hts t List.mem_cons_self
      have hu := hus u List.mem_cons_self
      have hAt : At (text (t :: ts)) 0 ([] ++ (tokenText t ++ 32 :: text ts)) :=
        ⟨hSplit t ts, by rw [← hSplit, Nat.zero_add]⟩
      have hAt' : At (text (t :: ts)) 0 ([] ++ (tokenText u ++ 32 :: text us)) :=
        ⟨h.trans (hSplit u us), by rw [← hSplit, h, Nat.zero_add]⟩
      obtain ⟨-, stop, hStep⟩ := step_printed lib hLen (by simp) ht hAt
      obtain ⟨-, stop', hStep'⟩ := step_printed lib hLen (by simp) hu hAt'
      obtain ⟨e, he⟩ := applyToken_printable ht ⟨none, .group⟩ .nil []
      obtain ⟨e', he'⟩ := applyToken_printable hu ⟨none, .group⟩ .nil []
      have hSame := (hStep [.node ⟨none, .group⟩ .nil .nil, .nil]).symm.trans (hStep' _)
      rw [stepToken, stepToken, he, he'] at hSame
      obtain ⟨rfl, -, -⟩ := Step.go.inj hSame
      have hTail : text ts = text us := by simpa using h
      have hShort : (text ts).length < 2 ^ 31 := by
        simp only [text_cons, List.length_append] at hLen
        omega
      rw [ih (fun t h => hts t (List.mem_cons_of_mem _ h)) (fun u h => hus u (List.mem_cons_of_mem _ h))
        hShort hTail]

end Read

end Utu.Stackish
