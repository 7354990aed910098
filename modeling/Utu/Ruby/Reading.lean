import Utu.Ruby.Parser
import Utu.Stackish.RoundTrip

/-!
# The Ruby parser on printed tokens

What the C side prints is a list of tokens with a blank behind each. The Ruby
parser takes such a text token by token: every token has one effect on its two
stacks. The exception is a string with a newline, which no regular expression
matches.
-/

namespace Utu.Ruby
open Stackish
set_option autoImplicit false

variable {D : Type} {floats : Floats D}

/-! ## One token -/

/-- What a token does to the stacks; closing a group needs a mark. -/
def Stacks.apply : Token D → Stacks D → Option (Stacks D)
  | .number n, s => some (s.push (.integer (n.getD 0).toNat))
  | .float _, _ => none
  | .string t, s => some (s.push (.string t false))
  | .blob b, s => some (s.push (.string (b.getD []) true))
  | .start, s => some s.mark
  | .word w, s => s.collapse.map fun r => r.2.push (.hash w r.1)
  | .group, s => s.collapse.map fun r => r.2.push r.1
  | .attrib a, s => some (s.pop.2.push (.hash a s.pop.1))

/-- No newline inside a string. -/
def OneLine : Token D → Prop
  | .string s => 10 ∉ s
  | _ => True

section Matching

/-- The bytes that a match can begin with. -/
def begins : TokenName → UInt8 → Bool
  | .space, c => isSpace c
  | .mark, c => c == 91
  | .group, c => c == 93
  | .colon, c => c == 58
  | .squote, c => c == 39
  | .attrib, c => c == 64
  | .float, c => c == 43 || c == 45 || Decimal.isDigit c
  | .number, c => Decimal.isDigit c
  | .word, c => isWordByte c
  | .string, c => c == 34

theorem check_of_not_begins {r : TokenName} {c : UInt8} (h : begins r c = false) (rest : Bytes) :
    check r (c :: rest) = none := by
  cases r with
  | space | number => simp only [begins] at h; simp [check, someBytes, h]
  | mark | group | colon | squote | attrib =>
    simp only [begins, beq_eq_false_iff_ne] at h
    simp [check, oneByte, h]
  | word => simp only [begins] at h; simp [check, wordText, h]
  | string =>
    simp only [begins, beq_eq_false_iff_ne] at h
    simp [check, stringText, h]
  | float =>
    simp only [begins, Bool.or_eq_false_iff, beq_eq_false_iff_ne] at h
    obtain ⟨⟨hPlus, hMinus⟩, hDigit⟩ := h
    simp [check, floatText, signText, hPlus, hMinus, hDigit]

/-- The first name that matches is the token. -/
theorem firstToken_of (earlier : List TokenName) {later : List TokenName} {r : TokenName} {s tok : Bytes}
    (hNames : tokenNames = earlier ++ r :: later) (hEarlier : ∀ q ∈ earlier, check q s = none)
    (hCheck : check r s = some tok) (hPos : 0 < tok.length) : firstToken s = some (r, tok) := by
  have hNone : earlier.findSome? (tryToken s) = none := by
    rw [List.findSome?_eq_none_iff]
    intro q hq
    simp only [tryToken, hEarlier q hq]
  have hFound : tryToken s r = some (r, tok) := by simp only [tryToken, hCheck, if_pos hPos]
  rw [firstToken, hNames, List.findSome?_append, hNone, Option.none_or, List.findSome?_cons, hFound]

/-- A byte that begins only one kind of token. -/
theorem firstToken_byte (earlier : List TokenName) {later : List TokenName} {r : TokenName} {c : UInt8}
    {rest tok : Bytes} (hNames : tokenNames = earlier ++ r :: later)
    (hEarlier : ∀ q ∈ earlier, begins q c = false) (hCheck : check r (c :: rest) = some tok) (hPos : 0 < tok.length) :
    firstToken (c :: rest) = some (r, tok) :=
  firstToken_of earlier hNames (fun q hq => check_of_not_begins (hEarlier q hq) rest) hCheck hPos

theorem not_begins_of_isAlpha {c : UInt8} (hc : isAlpha c = true) :
    ∀ q ∈ [TokenName.space, .mark, .group, .colon, .squote, .attrib, .float, .number],
      begins q c = false := by
  have hRange := (isAlpha_iff c).mp hc
  have hNe : ∀ b : UInt8, isAlpha b = false → c ≠ b := by
    rintro b hb rfl
    rw [hc] at hb
    cases hb
  have hDigit : Decimal.isDigit c = false := by
    rw [← Bool.not_eq_true, Decimal.isDigit_iff]
    omega
  have hSpace : isSpace c = false := by
    simp only [isSpace, Bool.or_eq_false_iff, beq_eq_false_iff_ne, Bool.and_eq_false_iff,
      decide_eq_false_iff_not, UInt8.le_iff_toNat_le]
    exact ⟨hNe 32 (by decide), .inr (by simp; omega)⟩
  simp [begins, hDigit, hSpace, hNe 91 (by decide), hNe 93 (by decide), hNe 58 (by decide),
    hNe 39 (by decide), hNe 64 (by decide), hNe 43 (by decide), hNe 45 (by decide)]

theorem not_begins_of_isDigit {c : UInt8} (hc : Decimal.isDigit c = true) :
    ∀ q ∈ [TokenName.space, .mark, .group, .colon, .squote, .attrib], begins q c = false := by
  have hNe : ∀ b : UInt8, Decimal.isDigit b = false → c ≠ b := by
    rintro b hb rfl
    rw [hc] at hb
    cases hb
  simp [begins, isSpace_of_isDigit hc, hNe 91 (by decide), hNe 93 (by decide), hNe 58 (by decide),
    hNe 39 (by decide), hNe 64 (by decide)]

theorem check_number_print (n : Nat) {c : UInt8} (hc : Decimal.isDigit c = false) (rest : Bytes) :
    check .number (Decimal.print n ++ c :: rest) = some (Decimal.print n) := by
  have hTake : (Decimal.print n ++ c :: rest).takeWhile Decimal.isDigit = Decimal.print n :=
    takeWhile_append_stop (Decimal.isDigit_of_mem_print n) fun b hb => by cases hb; exact hc
  simp [check, someBytes, hTake, Decimal.print_ne_nil]

/-- A numeral with a blank behind it is not the start of a float. -/
theorem check_float_print (n : Nat) (rest : Bytes) :
    check .float (Decimal.print n ++ 32 :: rest) = none := by
  have hSign : signText (Decimal.print n ++ 32 :: rest) = [] := by
    obtain ⟨c, tail, hPrint⟩ := List.exists_cons_of_ne_nil (Decimal.print_ne_nil n)
    have hc : Decimal.isDigit c = true :=
      Decimal.isDigit_of_mem_print n c (by rw [hPrint]; exact List.mem_cons_self)
    have hNot : ¬ (c = 43 ∨ c = 45) := by
      rintro (rfl | rfl) <;> exact absurd hc (by decide)
    rw [hPrint, List.cons_append, signText, if_neg hNot]
  have hTake : (Decimal.print n ++ 32 :: rest).takeWhile Decimal.isDigit = Decimal.print n :=
    takeWhile_append_stop (Decimal.isDigit_of_mem_print n) fun b hb => by cases hb; decide
  simp [check, floatText, hSign, hTake]

theorem check_word {w : Bytes} (hw : isWord w = true) (rest : Bytes) :
    check .word (w ++ 32 :: rest) = some w := by
  obtain ⟨c, tail, rfl, hc, hTail⟩ := isWord_cons hw
  have hTake : (tail ++ 32 :: rest).takeWhile isWordChar = tail :=
    takeWhile_append_stop hTail fun b hb => by cases hb; decide
  simp [check, wordText, isWordByte, hc, hTake]

theorem check_string {s : Bytes} (hQuote : 34 ∉ s) (hLine : 10 ∉ s) (rest : Bytes) :
    check .string (34 :: (s ++ 34 :: rest)) = some (34 :: s ++ [34]) := by
  have hTake : (s ++ 34 :: rest).takeWhile (fun b => b != 34 && b != 10) = s := by
    refine takeWhile_append_stop (fun b hb => ?_) fun b hb => by cases hb; decide
    simpa using ⟨ne_of_mem_of_not_mem hb hQuote, ne_of_mem_of_not_mem hb hLine⟩
  simp [check, stringText, hTake]

/-- The dot of the string's expression stops at the first newline. -/
theorem check_string_newline {s : Bytes} (hQuote : 34 ∉ s) (hLine : 10 ∈ s) (rest : Bytes) :
    check .string (34 :: (s ++ rest)) = none := by
  obtain ⟨before, behind, rfl, hFirst⟩ := List.eq_append_cons_of_mem hLine
  have hTake : (before ++ 10 :: (behind ++ rest)).takeWhile (fun b => b != 34 && b != 10) = before := by
    refine takeWhile_append_stop (fun b hb => ?_) fun b hb => by cases hb; decide
    have hMem : b ∈ before ++ 10 :: behind := List.mem_append_left _ hb
    simpa using ⟨ne_of_mem_of_not_mem hMem hQuote, ne_of_mem_of_not_mem hb hFirst⟩
  simp [check, stringText, hTake]

end Matching

section Step

theorem skip_append (run rest : Bytes) (pos : Nat) (stack : Stacks D) :
    (⟨pos, run ++ rest, stack⟩ : Parser D).skip run.length = .ok ⟨pos + run.length, rest, stack⟩ := by
  simp [Parser.skip]

theorem matchToken_append {name : TokenName} {m : Bytes} (rest : Bytes) (hCheck : check name (m ++ rest) = some m)
    (hNe : m ≠ []) (pos : Nat) (stack : Stacks D) :
    (⟨pos, m ++ rest, stack⟩ : Parser D).matchToken name =
      .ok (m, ⟨pos + m.length, rest, stack⟩) := by
  simp [Parser.matchToken, hCheck, hNe]

theorem matchToken_byte (name : TokenName) (c : UInt8) (rest : Bytes)
    (hCheck : check name (c :: rest) = some [c]) (pos : Nat) (stack : Stacks D) :
    (⟨pos, c :: rest, stack⟩ : Parser D).matchToken name = .ok ([c], ⟨pos + 1, rest, stack⟩) :=
  matchToken_append (m := [c]) rest hCheck (List.cons_ne_nil c []) pos stack

theorem step_of_first {name : TokenName} {tok rest : Bytes}
    (h : firstToken (tok ++ rest) = some (name, tok)) (pos : Nat) (stack : Stacks D) :
    (⟨pos, tok ++ rest, stack⟩ : Parser D).step floats =
      (⟨pos + tok.length, rest, stack⟩ : Parser D).send floats name tok := by
  simp only [Parser.step, h]
  exact Outcome.bind_of_ok (skip_append tok rest pos stack) _

/-- The text of a blob behind its first quote. -/
theorem squote_printed (b rest : Bytes) (pos : Nat) (stack : Stacks D) :
    (⟨pos, Decimal.print b.length ++ 58 :: (b ++ 39 :: rest), stack⟩ : Parser D).squote =
      .ok ⟨pos + (Decimal.print b.length).length + 1 + b.length + 1, rest,
        stack.push (.string b true)⟩ := by
  have hDigits := check_number_print b.length (c := 58) (by decide) (b ++ 39 :: rest)
  have hSize := matchToken_append _ hDigits (Decimal.print_ne_nil _) pos stack
  have hColon := matchToken_byte (D := D) .colon 58 (b ++ 39 :: rest) (by simp [check, oneByte])
    (pos + (Decimal.print b.length).length) stack
  have hSkip := skip_append b (39 :: rest) (pos + (Decimal.print b.length).length + 1) stack
  have hQuote := matchToken_byte (D := D) .squote 39 rest (by simp [check, oneByte])
    (pos + (Decimal.print b.length).length + 1 + b.length) stack
  simp only [Parser.squote]
  rw [Outcome.bind_of_ok hSize]
  dsimp only
  rw [Outcome.bind_of_ok hColon, Decimal.value_print]
  dsimp only
  rw [Outcome.bind_of_ok hSkip, Outcome.bind_of_ok hQuote, List.take_left]
  rfl

/-- A printed token on one line has its effect, and the parser stands on the blank behind it. -/
theorem step_token (floats : Floats D) {t : Token D} (ht : Printable t) (hLine : OneLine t) {s s' : Stacks D}
    (hApply : s.apply t = some s') (pos : Nat) (rest : Bytes) :
    (⟨pos, tokenText t ++ 32 :: rest, s⟩ : Parser D).step floats =
      .ok ⟨pos + (tokenText t).length, 32 :: rest, s'⟩ := by
  cases t with
  | float x => exact ht.elim
  | number n =>
    obtain ⟨n, rfl⟩ := Option.ne_none_iff_exists'.mp ht
    cases hApply
    have hFirst : firstToken (Decimal.print n.toNat ++ 32 :: rest) =
        some (.number, Decimal.print n.toNat) := by
      refine firstToken_of [.space, .mark, .group, .colon, .squote, .attrib, .float] rfl (fun q hq => ?_)
        (check_number_print _ (by decide) rest) (List.length_pos_iff.mpr (Decimal.print_ne_nil _))
      by_cases hFloat : q = .float
      · rw [hFloat]
        exact check_float_print _ rest
      · obtain ⟨c, tail, hPrint⟩ := List.exists_cons_of_ne_nil (Decimal.print_ne_nil n.toNat)
        have hc : Decimal.isDigit c = true :=
          Decimal.isDigit_of_mem_print n.toNat c (by rw [hPrint]; exact List.mem_cons_self)
        rw [hPrint, List.cons_append]
        refine check_of_not_begins (not_begins_of_isDigit hc q ?_) _
        simpa [hFloat] using hq
    simp only [tokenText, Option.getD_some]
    rw [step_of_first hFirst]
    simp only [Parser.send, Parser.push, Decimal.value_print]
  | string b =>
    cases hApply
    have hFirst : firstToken ((34 :: b ++ [34]) ++ 32 :: rest) = some (.string, 34 :: b ++ [34]) := by
      have hText : (34 :: b ++ [34]) ++ 32 :: rest = 34 :: (b ++ 34 :: 32 :: rest) := by simp
      rw [hText]
      exact firstToken_byte
        [.space, .mark, .group, .colon, .squote, .attrib, .float, .number, .word] rfl (by decide)
        (check_string ht hLine _) (by simp)
    simp only [tokenText]
    rw [step_of_first hFirst]
    simp [Parser.send, Parser.push]
  | blob b =>
    obtain ⟨b, rfl⟩ := Option.ne_none_iff_exists'.mp ht
    cases hApply
    have hText : tokenText (.blob (some b) : Token D) ++ 32 :: rest =
        [39] ++ (Decimal.print b.length ++ 58 :: (b ++ 39 :: 32 :: rest)) := by
      simp [tokenText, blobText, blength]
    have hFirst : firstToken ([39] ++ (Decimal.print b.length ++ 58 :: (b ++ 39 :: 32 :: rest))) =
        some (.squote, [39]) :=
      firstToken_byte [.space, .mark, .group, .colon] rfl (by decide)
        (by simp [check, oneByte]) (by simp)
    rw [hText, step_of_first hFirst]
    simp only [Parser.send]
    rw [squote_printed]
    simp [tokenText, blobText, blength]
    omega
  | start =>
    cases hApply
    have hFirst : firstToken ([91] ++ 32 :: rest) = some (.mark, [91]) :=
      firstToken_byte [.space] rfl (by decide) (by simp [check, oneByte]) (by simp)
    exact step_of_first hFirst pos s
  | group =>
    obtain ⟨⟨x, s₁⟩, hCollapse, rfl⟩ := Option.map_eq_some_iff.mp hApply
    have hFirst : firstToken ([93] ++ 32 :: rest) = some (.group, [93]) :=
      firstToken_byte [.space, .mark] rfl (by decide) (by simp [check, oneByte]) (by simp)
    refine (step_of_first hFirst pos s).trans ?_
    simp only [Parser.send, Parser.collapse, hCollapse]
    rfl
  | word w =>
    obtain ⟨⟨x, s₁⟩, hCollapse, rfl⟩ := Option.map_eq_some_iff.mp hApply
    have hCheck := check_word ht rest
    have hFirst : firstToken (w ++ 32 :: rest) = some (.word, w) := by
      obtain ⟨c, tail, rfl, hc, -⟩ := isWord_cons ht
      exact firstToken_byte _ rfl (not_begins_of_isAlpha hc) hCheck (by simp)
    refine (step_of_first hFirst pos s).trans ?_
    simp only [Parser.send, Parser.collapse, hCollapse]
    rfl
  | attrib a =>
    obtain ⟨w, hw, rfl⟩ := ht
    cases hApply
    have hFirst : firstToken ([64] ++ (w ++ 32 :: rest)) = some (.attrib, [64]) :=
      firstToken_byte [.space, .mark, .group, .colon, .squote] rfl (by decide)
        (by simp [check, oneByte]) (by simp)
    have hNe : w ≠ [] := by
      rintro rfl
      cases hw
    have hWord := matchToken_append (D := D) _ (check_word hw rest) hNe (pos + 1) s
    have hPos : pos + 1 + w.length = pos + (64 :: w).length := by
      rw [List.length_cons]
      omega
    rw [hPos] at hWord
    refine (step_of_first hFirst pos s).trans ?_
    simp only [Parser.send, Parser.attrib]
    exact Outcome.bind_of_ok hWord _

/-- No expression matches a string with a newline. -/
theorem step_newline (floats : Floats D) {b : Bytes} (hQuote : 34 ∉ b) (hLine : 10 ∈ b) (pos : Nat) (rest : Bytes)
    (s : Stacks D) :
    (⟨pos, tokenText (.string b : Token D) ++ rest, s⟩ : Parser D).step floats =
      .error (.invalid pos) := by
  have hText : tokenText (.string b : Token D) ++ rest = 34 :: (b ++ 34 :: rest) := by
    simp [tokenText]
  have hFirst : firstToken (34 :: (b ++ 34 :: rest)) = none := by
    rw [firstToken, List.findSome?_eq_none_iff]
    intro q hq
    by_cases hString : q = .string
    · rw [hString, tryToken, check_string_newline hQuote hLine]
    · have hNot : begins q 34 = false := by
        cases q <;> first | rfl | exact absurd rfl hString
      rw [tryToken, check_of_not_begins hNot]
  simp only [Parser.step, hText, hFirst]

end Step

/-! ## A whole text -/

section Run

/-- Apply a token list from left to right. -/
def Stacks.applyAll : List (Token D) → Stacks D → Option (Stacks D)
  | [], s => some s
  | t :: ts, s => (s.apply t).bind (applyAll ts)

theorem printable_head {t : Token D} (ht : Printable t) :
    ∃ c tail, tokenText t = c :: tail ∧ isSpace c = false := by
  cases t with
  | number n =>
    obtain ⟨c, tail, hPrint⟩ := List.exists_cons_of_ne_nil (Decimal.print_ne_nil (n.getD 0).toNat)
    refine ⟨c, tail, hPrint, isSpace_of_isDigit (Decimal.isDigit_of_mem_print (n.getD 0).toNat c ?_)⟩
    rw [hPrint]
    exact List.mem_cons_self
  | float x => exact ht.elim
  | string s => exact ⟨34, s ++ [34], rfl, rfl⟩
  | blob s => exact ⟨39, _, rfl, rfl⟩
  | start => exact ⟨91, [], rfl, rfl⟩
  | group => exact ⟨93, [], rfl, rfl⟩
  | word w =>
    obtain ⟨c, tail, rfl, hc, -⟩ := isWord_cons ht
    exact ⟨c, tail, rfl, not_begins_of_isAlpha hc .space List.mem_cons_self⟩
  | attrib a =>
    obtain ⟨w, -, rfl⟩ := ht
    exact ⟨64, w, rfl, rfl⟩

theorem run_newlineEnd (pos : Nat) (s : Stacks D) :
    (⟨pos, [10], s⟩ : Parser D).run floats = .ok ⟨pos + 1, [], s⟩ := by
  have hFirst : firstToken ([10] ++ []) = some (.space, [10]) := by decide
  exact (Parser.run_step (step_of_first hFirst pos s)).trans (Parser.run_done rfl)

/-- The blanks before a token, and the newline behind the last blank, go in one match. -/
theorem run_blank {ts : List (Token D)} (hts : ∀ t ∈ ts, Printable t) (pos : Nat) (s : Stacks D) :
    (⟨pos, 32 :: (text ts ++ [10]), s⟩ : Parser D).run floats =
      (⟨pos + 1, text ts ++ [10], s⟩ : Parser D).run floats := by
  cases ts with
  | nil =>
    have hFirst : firstToken ([32, 10] ++ []) = some (.space, [32, 10]) := by decide
    refine (Parser.run_step (step_of_first hFirst pos s)).trans ?_
    exact (Parser.run_done rfl).trans (run_newlineEnd (pos + 1) s).symm
  | cons t ts =>
    obtain ⟨c, tail, hHead, hc⟩ := printable_head (hts t List.mem_cons_self)
    have hText : text (t :: ts) ++ [10] = c :: (tail ++ 32 :: (text ts ++ [10])) := by simp [hHead]
    have hFirst : firstToken ([32] ++ c :: (tail ++ 32 :: (text ts ++ [10]))) = some (.space, [32]) := by
      have hBlank : isSpace 32 = true := rfl
      refine firstToken_of [] rfl (by simp) ?_ (by simp)
      simp [check, someBytes, hc, hBlank]
    rw [hText]
    exact Parser.run_step (step_of_first hFirst pos s)

theorem run_text (floats : Floats D) {ts : List (Token D)} (hts : ∀ t ∈ ts, Printable t)
    (hLines : ∀ t ∈ ts, OneLine t) {s s' : Stacks D} (hApply : s.applyAll ts = some s') (pos : Nat) :
    ∃ pos', (⟨pos, text ts ++ [10], s⟩ : Parser D).run floats = .ok ⟨pos', [], s'⟩ := by
  induction ts generalizing s pos with
  | nil =>
    obtain rfl : s = s' := Option.some.inj hApply
    exact ⟨pos + 1, run_newlineEnd pos s⟩
  | cons t ts ih =>
    obtain ⟨s₁, hHead, hTail⟩ := Option.bind_eq_some_iff.mp hApply
    have hText : text (t :: ts) ++ [10] = tokenText t ++ 32 :: (text ts ++ [10]) := by simp
    have hStep := step_token floats (hts t List.mem_cons_self) (hLines t List.mem_cons_self)
      hHead pos (text ts ++ [10])
    have hRest : ∀ u ∈ ts, Printable u := fun u hu => hts u (List.mem_cons_of_mem t hu)
    rw [hText, Parser.run_step hStep, run_blank hRest]
    exact ih hRest (fun u hu => hLines u (List.mem_cons_of_mem t hu)) hTail _

/-- A text with a string that goes over a line end is not read to its end. -/
theorem run_newline (floats : Floats D) {ts : List (Token D)} (hts : ∀ t ∈ ts, Printable t)
    {b : Bytes} (hMem : .string b ∈ ts) (hLine : 10 ∈ b) {s s' : Stacks D} (hApply : s.applyAll ts = some s')
    (pos : Nat) : ∃ pos', (⟨pos, text ts ++ [10], s⟩ : Parser D).run floats = .error (.invalid pos') := by
  induction ts generalizing s pos with
  | nil => cases hMem
  | cons t ts ih =>
    obtain ⟨s₁, hHead, hTail⟩ := Option.bind_eq_some_iff.mp hApply
    have hText : text (t :: ts) ++ [10] = tokenText t ++ 32 :: (text ts ++ [10]) := by simp
    have hRest : ∀ u ∈ ts, Printable u := fun u hu => hts u (List.mem_cons_of_mem t hu)
    rw [hText]
    by_cases hHeadLine : OneLine t
    · have hStep := step_token floats (hts t List.mem_cons_self) hHeadLine hHead pos
        (text ts ++ [10])
      have hLater : .string b ∈ ts := by
        rcases List.mem_cons.mp hMem with rfl | hLater
        · exact absurd hLine hHeadLine
        · exact hLater
      rw [Parser.run_step hStep, run_blank hRest]
      exact ih hRest hLater hTail _
    · cases t with
      | string c =>
        have hQuote : 34 ∉ c := hts _ List.mem_cons_self
        have hStep := step_newline floats hQuote (not_not.mp hHeadLine) pos
          (32 :: (text ts ++ [10])) s
        exact ⟨pos, Parser.run_error (by simp [tokenText]) hStep⟩
      | number | float | blob | start | word | group | attrib => exact absurd trivial hHeadLine

end Run

end Utu.Ruby
