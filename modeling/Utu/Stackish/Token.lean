import Utu.Stackish.Machine
import Utu.Stackish.Node

/-!
# Reading a buffer token by token

The grammar of the scanner, without its states, marks and re-entries: a lexer
for the next token of a text, a document under construction, and the step that
reads one token of a buffer into it. A blob is read by jumping behind it with
the arithmetic of `size_t`, so a length can lead back to an earlier offset, and
reading need not come to an end. The scanner is related to this reading in the
following modules.
-/

namespace Utu.Stackish
open LinkedForest
set_option autoImplicit false

/-- A token with what it denotes; a numeral that does not convert denotes nothing. -/
inductive Token (D : Type) where
  | number (n : Option UInt64)
  | float (x : Option D)
  | string (s : Bytes)
  | blob (s : Option Bytes)
  | start
  | word (w : Bytes)
  | group
  | attrib (a : Bytes)
deriving DecidableEq, Repr

/-- The next token of a text: reading goes on behind `len` bytes, and the token takes effect
at the byte `stop`. Of a blob only the length is read. -/
inductive Lexed (D : Type) where
  | done
  | bad
  | token (t : Token D) (len stop : Nat)
  | blobHead (length len : Nat)
deriving DecidableEq, Repr

namespace Lexed
variable {D : Type}

def shift (k : Nat) : Lexed D → Lexed D
  | done => done
  | bad => bad
  | token t len stop => token t (k + len) (k + stop)
  | blobHead length len => blobHead length (k + len)

end Lexed

section Lexer
variable {D : Type} (lib : DoubleLib D)

/-- A token that ends at the first byte outside of it, which must be able to follow. -/
def lexEnd (t : Token D) (len : Nat) : Bytes → Lexed D
  | [] => .done
  | c :: _ => if (idle c).1 = 0 then .bad else .token t len len

def numberOf (digits : Bytes) : Option UInt64 :=
  if sizeMod ≤ Decimal.value digits then none else some (UInt64.ofNat (Decimal.value digits))

/-- `strtod` must have read the `len` bytes of the token and no more. -/
def floatOf (text : Bytes) (len : Nat) : Option D :=
  let (x, stop, range) := lib.strtod text
  if stop = len ∧ range = false then some x else none

/-- What is left of a text when a needed byte is missing. -/
def lexMissing : Bytes → Lexed D
  | [] => .done
  | _ :: _ => .bad

def lexFraction (text : Bytes) (n : Nat) (frac : Bytes) : Lexed D :=
  let digits := frac.takeWhile Decimal.isDigit
  if digits = [] then lexMissing frac
  else
    lexEnd (.float (floatOf lib text (n + digits.length))) (n + digits.length)
      (frac.drop digits.length)

def lexNumber (text : Bytes) : Lexed D :=
  let digits := text.takeWhile Decimal.isDigit
  match text.drop digits.length with
  | 46 :: frac => lexFraction lib text (digits.length + 1) frac
  | rest => lexEnd (.number (numberOf digits)) digits.length rest

def lexSigned (text : Bytes) : Lexed D :=
  let digits := text.tail.takeWhile Decimal.isDigit
  if digits = [] then lexMissing text.tail
  else
    match text.tail.drop digits.length with
    | 46 :: frac => lexFraction lib text (digits.length + 2) frac
    | rest => lexMissing rest

def lexWord (text : Bytes) : Lexed D :=
  let word := text.takeWhile isWordChar
  lexEnd (.word word) word.length (text.drop word.length)

def lexAttrib (text : Bytes) : Lexed D :=
  match text.tail with
  | [] => .done
  | c :: rest =>
    if isAlpha c then
      let word := (c :: rest).takeWhile isWordChar
      lexEnd (.attrib (64 :: word)) (word.length + 1) ((c :: rest).drop word.length)
    else .bad

def lexString (text : Bytes) : Lexed D :=
  let s := text.tail.takeWhile (· ≠ 34)
  if text.tail.drop s.length = [] then .done
  else .token (.string s) (s.length + 2) (s.length + 1)

def lexBlob (text : Bytes) : Lexed D :=
  let digits := text.tail.takeWhile Decimal.isDigit
  if digits = [] then lexMissing text.tail
  else
    match text.tail.drop digits.length with
    | 58 :: _ => .blobHead (Decimal.value digits) (digits.length + 2)
    | rest => lexMissing rest

def lex : Bytes → Lexed D
  | [] => .done
  | c :: rest =>
    if isSpace c then (lex rest).shift 1
    else if c = 34 then lexString (c :: rest)
    else if c = 39 then lexBlob (c :: rest)
    else if c = 43 ∨ c = 45 then lexSigned lib (c :: rest)
    else if c = 64 then lexAttrib (c :: rest)
    else if c = 91 then .token .start 1 0
    else if c = 93 then .token .group 1 0
    else if Decimal.isDigit c then lexNumber lib (c :: rest)
    else if isAlpha c then lexWord (c :: rest)
    else .bad

/-- What the first byte of a text makes of it, for the lexer and for the scanner between two tokens. -/
inductive LexCase (c : UInt8) (rest : Bytes) : Lexed D → Prop
  | space (hSpace : isSpace c = true) (hIdle : idle c = (10, [])) : LexCase c rest ((lex lib rest).shift 1)
  | string (hQuote : c = 34) : LexCase c rest (lexString (c :: rest))
  | blob (hTick : c = 39) : LexCase c rest (lexBlob (c :: rest))
  | signed (hIdle : idle c = (6, [.mark])) : LexCase c rest (lexSigned lib (c :: rest))
  | attrib (hAttr : c = 64) : LexCase c rest (lexAttrib (c :: rest))
  | start (hOpen : c = 91) : LexCase c rest (.token .start 1 0)
  | group (hClose : c = 93) : LexCase c rest (.token .group 1 0)
  | number (hDigit : Decimal.isDigit c = true) (hIdle : idle c = (14, [.mark])) :
      LexCase c rest (lexNumber lib (c :: rest))
  | word (hAlpha : isAlpha c = true) (hIdle : idle c = (13, [.mark])) : LexCase c rest (lexWord (c :: rest))
  | bad (hIdle : idle c = (0, [])) : LexCase c rest .bad

theorem lex_cons (c : UInt8) (rest : Bytes) : LexCase lib c rest (lex lib (c :: rest)) := by
  -- the lexer and the scanner ask the same questions in the same order
  rw [lex]
  by_cases hSpace : isSpace c = true
  · rw [if_pos hSpace]
    exact .space hSpace (if_pos hSpace)
  rw [if_neg hSpace]
  by_cases hQuote : c = 34
  · rw [if_pos hQuote]
    exact .string hQuote
  rw [if_neg hQuote]
  by_cases hTick : c = 39
  · rw [if_pos hTick]
    exact .blob hTick
  rw [if_neg hTick]
  by_cases hSign : c = 43 ∨ c = 45
  · rw [if_pos hSign]
    exact .signed (by simp [idle, hSpace, hQuote, hTick, hSign])
  rw [if_neg hSign]
  by_cases hAttr : c = 64
  · rw [if_pos hAttr]
    exact .attrib hAttr
  rw [if_neg hAttr]
  by_cases hOpen : c = 91
  · rw [if_pos hOpen]
    exact .start hOpen
  rw [if_neg hOpen]
  by_cases hClose : c = 93
  · rw [if_pos hClose]
    exact .group hClose
  rw [if_neg hClose]
  by_cases hDigit : Decimal.isDigit c = true
  · rw [if_pos hDigit]
    exact .number hDigit (by simp [idle, hSpace, hQuote, hTick, hSign, hAttr, hOpen, hClose, hDigit])
  rw [if_neg hDigit]
  by_cases hAlpha : isAlpha c = true
  · rw [if_pos hAlpha]
    exact .word hAlpha (by simp [idle, hSpace, hQuote, hTick, hSign, hAttr, hOpen, hClose, hDigit, hAlpha])
  rw [if_neg hAlpha]
  exact .bad (by simp [idle, hSpace, hQuote, hTick, hSign, hAttr, hOpen, hClose, hDigit, hAlpha])

/-! ### What tokens look like and where they lie -/

/-- A letter and then letters, digits and the four signs of a name. -/
def isWord : Bytes → Bool
  | [] => false
  | c :: rest => isAlpha c && rest.all isWordChar

def attribName (name : Bytes) : Prop := ∃ w, isWord w = true ∧ name = 64 :: w

def rootName (name : Option Bytes) : Prop := ∀ n, name = some n → isWord n = true

def Token.Shape : Token D → Prop
  | .string s => 34 ∉ s
  | .word w => isWord w = true
  | .attrib a => attribName a
  | _ => True

def Lexed.Shape : Lexed D → Prop
  | .token t _ _ => t.Shape
  | _ => True

theorem lexEnd_shape {t : Token D} (ht : t.Shape) (len : Nat) (rest : Bytes) :
    (lexEnd t len rest).Shape := by
  cases rest with
  | nil => trivial
  | cons c rest =>
    simp only [lexEnd]
    split
    · trivial
    · exact ht

theorem lexMissing_shape (rest : Bytes) : (lexMissing rest : Lexed D).Shape := by
  cases rest <;> trivial

theorem lexFraction_shape (text : Bytes) (k : Nat) (frac : Bytes) :
    (lexFraction lib text k frac).Shape := by
  simp only [lexFraction]
  split
  · exact lexMissing_shape _
  · refine lexEnd_shape ?_ _ _
    trivial

theorem isWord_takeWhile {c : UInt8} (hc : isAlpha c = true) (rest : Bytes) :
    isWord ((c :: rest).takeWhile isWordChar) = true := by
  have hWord : isWordChar c = true := by simp [isWordChar, hc]
  obtain ⟨run, tail, -, hTake, -, hAll, -⟩ := exists_run_cons hWord rest
  rw [hTake]
  simp only [isWord, hc, Bool.true_and, List.all_eq_true]
  exact fun b hb => hAll b (List.mem_cons_of_mem c hb)

theorem lexAttrib_shape (c : UInt8) (rest : Bytes) : (lexAttrib (c :: rest) : Lexed D).Shape := by
  cases rest with
  | nil => trivial
  | cons b rest =>
    simp only [lexAttrib, List.tail_cons]
    split
    · rename_i hAlpha
      refine lexEnd_shape ?_ _ _
      exact ⟨_, isWord_takeWhile hAlpha rest, rfl⟩
    · trivial

theorem lexString_shape (c : UInt8) (rest : Bytes) : (lexString (c :: rest) : Lexed D).Shape := by
  obtain ⟨s, tail, -, hTake, hDrop, hAll, -⟩ := exists_run (fun c : UInt8 => decide (c ≠ 34)) rest
  simp only [lexString, List.tail_cons, hTake, hDrop]
  cases tail with
  | nil => trivial
  | cons b tail =>
    intro hMem
    exact absurd (hAll 34 hMem) (by decide)

theorem lexBlob_shape (text : Bytes) : (lexBlob text : Lexed D).Shape := by
  simp only [lexBlob]
  split
  · exact lexMissing_shape _
  split
  · trivial
  · exact lexMissing_shape _

theorem lexSigned_shape (text : Bytes) : (lexSigned lib text).Shape := by
  simp only [lexSigned]
  split
  · exact lexMissing_shape _
  split
  · exact lexFraction_shape lib _ _ _
  · exact lexMissing_shape _

theorem lexNumber_shape (text : Bytes) : (lexNumber lib text).Shape := by
  simp only [lexNumber]
  split
  · exact lexFraction_shape lib _ _ _
  · refine lexEnd_shape ?_ _ _
    trivial

theorem Lexed.Shape.shift {l : Lexed D} (h : l.Shape) (k : Nat) : (l.shift k).Shape := by
  cases l with
  | token t len stop => exact h
  | done | bad | blobHead => trivial

theorem lex_shape (text : Bytes) : (lex lib text).Shape := by
  induction text with
  | nil => trivial
  | cons c rest ih =>
    have hCase := lex_cons lib c rest
    generalize lex lib (c :: rest) = l at hCase ⊢
    cases hCase with
    | space => exact ih.shift 1
    | string => exact lexString_shape c rest
    | blob => exact lexBlob_shape _
    | signed => exact lexSigned_shape lib _
    | attrib => exact lexAttrib_shape c rest
    | number => exact lexNumber_shape lib _
    | word hAlpha =>
      refine lexEnd_shape ?_ _ _
      exact isWord_takeWhile hAlpha rest
    | start | group | bad => trivial

/-- A token is not empty and lies inside the text; a blob length ends in a colon. -/
def Lexed.Within (text : Bytes) : Lexed D → Prop
  | .token _ len stop => 0 < len ∧ len ≤ text.length ∧ stop < text.length
  | .blobHead _ len => ∃ before after, text = before ++ 58 :: after ∧ before.length + 1 = len
  | _ => True

theorem lexEnd_within (t : Token D) {len : Nat} (hLen : 0 < len) (rest : Bytes) {text : Bytes}
    (hText : len + rest.length ≤ text.length) : (lexEnd t len rest).Within text := by
  cases rest with
  | nil => trivial
  | cons c rest =>
    simp only [List.length_cons] at hText
    simp only [lexEnd]
    split
    · trivial
    · exact ⟨hLen, by omega, by omega⟩

theorem lexMissing_within (rest text : Bytes) : (lexMissing rest : Lexed D).Within text := by
  cases rest <;> trivial

theorem lexFraction_within (text : Bytes) (k : Nat) (frac : Bytes)
    (hText : k + frac.length ≤ text.length) : (lexFraction lib text k frac).Within text := by
  have hRun := (List.takeWhile_prefix Decimal.isDigit (l := frac)).length_le
  simp only [lexFraction]
  split
  · exact lexMissing_within _ _
  · rename_i hNe
    have hPos := List.length_pos_iff.mpr hNe
    exact lexEnd_within _ (by omega) _ (by rw [List.length_drop]; omega)

theorem lexNumber_within {c : UInt8} (hc : Decimal.isDigit c = true) (rest : Bytes) :
    (lexNumber lib (c :: rest)).Within (c :: rest) := by
  obtain ⟨digits, tail, rfl, hTake, hDrop, -, -⟩ := exists_run_cons hc rest
  have hLength : (c :: (digits ++ tail)).length = (c :: digits).length + tail.length := by
    rw [← List.cons_append, List.length_append]
  have hPos : 0 < (c :: digits).length := Nat.succ_pos _
  simp only [lexNumber, hTake, hDrop]
  split
  · refine lexFraction_within lib _ _ _ ?_
    simp only [List.length_cons] at hLength ⊢
    omega
  · exact lexEnd_within _ hPos _ (by omega)

theorem lexSigned_within (c : UInt8) (rest : Bytes) :
    (lexSigned lib (c :: rest)).Within (c :: rest) := by
  obtain ⟨digits, tail, hRest, hTake, hDrop, -, -⟩ := exists_run Decimal.isDigit rest
  simp only [lexSigned, List.tail_cons, hTake, hDrop]
  split
  · exact lexMissing_within _ _
  split
  · refine lexFraction_within lib _ _ _ ?_
    rw [hRest]
    simp only [List.length_cons, List.length_append]
    omega
  · exact lexMissing_within _ _

theorem lexWord_within {c : UInt8} (hc : isWordChar c = true) (rest : Bytes) :
    (lexWord (c :: rest) : Lexed D).Within (c :: rest) := by
  obtain ⟨word, tail, rfl, hTake, hDrop, -, -⟩ := exists_run_cons hc rest
  simp only [lexWord, hTake, hDrop]
  refine lexEnd_within _ (Nat.succ_pos _) _ ?_
  simp only [List.length_cons, List.length_append]
  omega

theorem lexAttrib_within (c : UInt8) (rest : Bytes) :
    (lexAttrib (c :: rest) : Lexed D).Within (c :: rest) := by
  cases rest with
  | nil => trivial
  | cons b rest =>
    have hRun := (List.takeWhile_prefix isWordChar (l := b :: rest)).length_le
    simp only [List.length_cons] at hRun
    simp only [lexAttrib, List.tail_cons]
    split
    · refine lexEnd_within _ (by omega) _ ?_
      simp only [List.length_drop, List.length_cons]
      omega
    · trivial

theorem lexString_within (c : UInt8) (rest : Bytes) :
    (lexString (c :: rest) : Lexed D).Within (c :: rest) := by
  obtain ⟨s, tail, hRest, hTake, hDrop, -, -⟩ := exists_run (fun c : UInt8 => decide (c ≠ 34)) rest
  simp only [lexString, List.tail_cons, hTake, hDrop]
  cases tail with
  | nil => trivial
  | cons b tail =>
    rw [if_neg (List.cons_ne_nil b tail), hRest]
    refine ⟨by omega, ?_, ?_⟩
    all_goals
      simp only [List.length_cons, List.length_append]
      omega

theorem lexBlob_within (c : UInt8) (rest : Bytes) : (lexBlob (c :: rest) : Lexed D).Within (c :: rest) := by
  obtain ⟨digits, tail, hRest, hTake, hDrop, -, -⟩ := exists_run Decimal.isDigit rest
  simp only [lexBlob, List.tail_cons, hTake, hDrop]
  split
  · exact lexMissing_within _ _
  split
  · exact ⟨c :: digits, _, by rw [hRest]; rfl, rfl⟩
  · exact lexMissing_within _ _

theorem Lexed.Within.shift {l : Lexed D} {text : Bytes} (h : l.Within text) (c : UInt8) :
    (l.shift 1).Within (c :: text) := by
  cases l with
  | token t len stop =>
    obtain ⟨hPos, hLe, hStop⟩ := h
    refine ⟨by omega, ?_, ?_⟩
    all_goals
      simp only [List.length_cons]
      omega
  | blobHead n len =>
    obtain ⟨before, after, rfl, rfl⟩ := h
    exact ⟨c :: before, after, rfl, by simp only [List.length_cons]; omega⟩
  | done | bad => trivial

theorem lex_within (text : Bytes) : (lex lib text).Within text := by
  induction text with
  | nil => trivial
  | cons c rest ih =>
    have hCase := lex_cons lib c rest
    generalize lex lib (c :: rest) = l at hCase ⊢
    cases hCase with
    | space => exact ih.shift c
    | string => exact lexString_within c rest
    | blob => exact lexBlob_within c rest
    | signed => exact lexSigned_within lib c rest
    | attrib => exact lexAttrib_within c rest
    | start | group => exact ⟨by omega, by simp, by simp⟩
    | number hDigit => exact lexNumber_within lib hDigit rest
    | word hAlpha => exact lexWord_within (by simp [isWordChar, hAlpha]) rest
    | bad => trivial

end Lexer

section Document
variable {D : Type}

/-- The finished children of every open group, innermost first; no group is open before the
first `[`. -/
abbrev Doc (D : Type) := List (Tree D)

inductive Applied (D : Type) where
  | next (d : Doc D)
  | refused
  | closed (t : Tree D)
  | crashed
deriving DecidableEq, Repr

def pushLeaf (value : Value D) : Doc D → Applied D
  | [] => .refused
  | kids :: outer => .next (.node ⟨none, value⟩ .nil kids :: outer)

def closeGroup (name : Option Bytes) : Doc D → Applied D
  | [] => .refused
  | [kids] => .closed (.node ⟨name, .group⟩ kids .nil)
  | kids :: siblings :: outer => .next (.node ⟨name, .group⟩ kids siblings :: outer)

/-- An attribute names the newest child of the innermost group. -/
def nameNewest (name : Bytes) : Doc D → Applied D
  | [] => .crashed
  | .nil :: _ => .refused
  | .node d c s :: outer => .next (.node { d with name := some name } c s :: outer)

def applyToken : Token D → Doc D → Applied D
  | .number (some n), d => pushLeaf (.number n) d
  | .number none, _ => .refused
  | .float (some x), d => pushLeaf (.float x) d
  | .float none, _ => .refused
  | .string s, d => pushLeaf (.string (some s)) d
  | .blob s, d => pushLeaf (.blob s) d
  | .start, d => .next (.nil :: d)
  | .word w, d => closeGroup (some w) d
  | .group, d => closeGroup none d
  | .attrib a, d => nameNewest a d

/-- The tree under construction, its open groups still without a name. -/
def Doc.root : Doc D → Tree D
  | [] => .nil
  | kids :: outer =>
    .node ⟨none, .group⟩ (outer.foldl (fun inner kids => .node ⟨none, .group⟩ inner kids) kids) .nil

end Document

section Reading
variable {D : Type} (lib : DoubleLib D) (buf : Bytes)

/-- Why reading stopped: the buffer ended, the text is no token, a token was refused or closed
the root at an offset, an attribute came before any group, or a blob leaves the buffer. -/
inductive Ending (D : Type) where
  | ended
  | lexError
  | refused (stop : Nat)
  | closed (t : Tree D) (stop : Nat)
  | crashed
  | overrun
deriving DecidableEq, Repr

inductive Step (D : Type) where
  | go (t : Token D) (p : Nat) (d : Doc D)
  | stop (e : Ending D)
deriving DecidableEq, Repr

def stepToken (t : Token D) (next stop : Nat) (d : Doc D) : Step D :=
  match applyToken t d with
  | .next d => .go t next d
  | .refused => .stop (.refused stop)
  | .closed tree => .stop (.closed tree stop)
  | .crashed => .stop .crashed

/-- The bytes from `start` to the closing quote; nothing when the quote lies before `start`. -/
def blobBetween (start quote : Nat) : Option Bytes :=
  if start ≤ quote then some ((buf.drop start).take (quote - start)) else none

/-- The offset of the closing quote of a blob of `n` bytes that starts at `start`. -/
def resumeAt (start n : Nat) : Nat := (start + n) % sizeMod

def stepBlob (start n : Nat) (d : Doc D) : Step D :=
  if sizeMod ≤ n then .stop .lexError
  else if buf.length ≤ resumeAt start n then .stop .overrun
  else if buf[resumeAt start n]? = some 39 then
    stepToken (.blob (blobBetween buf start (resumeAt start n))) (resumeAt start n + 1)
      (resumeAt start n) d
  else .stop .lexError

/-- Read one token at offset `p`. -/
def step (p : Nat) (d : Doc D) : Step D :=
  match lex lib (buf.drop p) with
  | .done => .stop .ended
  | .bad => .stop .lexError
  | .token t len stop => stepToken t (p + len) (p + stop) d
  | .blobHead n len => stepBlob buf (p + len) n d

/-- A step is stopped by the text, or applies a token that takes effect inside the buffer. -/
theorem step_cases (p : Nat) (d : Doc D) :
    (∃ x, (x = .ended ∨ x = .lexError ∨ x = .overrun) ∧ step lib buf p d = .stop x) ∨
      ∃ t next stop, t.Shape ∧ stop < buf.length ∧ step lib buf p d = stepToken t next stop d := by
  have hWithin := lex_within lib (buf.drop p)
  have hShape := lex_shape lib (buf.drop p)
  simp only [step]
  cases hLex : lex lib (buf.drop p) with
  | done => exact .inl ⟨_, .inl rfl, rfl⟩
  | bad => exact .inl ⟨_, .inr (.inl rfl), rfl⟩
  | token t len stop =>
    rw [hLex] at hWithin hShape
    have hStop := hWithin.2.2
    rw [List.length_drop] at hStop
    exact .inr ⟨t, _, _, hShape, by omega, rfl⟩
  | blobHead n len =>
    simp only [stepBlob]
    split
    · exact .inl ⟨_, .inr (.inl rfl), rfl⟩
    split
    · exact .inl ⟨_, .inr (.inr rfl), rfl⟩
    rename_i hOff
    split
    · refine .inr ⟨_, _, _, ?_, Nat.not_le.mp hOff, rfl⟩
      trivial
    · exact .inl ⟨_, .inr (.inl rfl), rfl⟩

theorem step_go {p q : Nat} {d e : Doc D} {t : Token D} (h : step lib buf p d = .go t q e) :
    t.Shape ∧ applyToken t d = .next e := by
  rcases step_cases lib buf p d with ⟨x, -, hStep⟩ | ⟨u, next, stop, hShape, -, hStep⟩
  · rw [hStep] at h
    cases h
  · rw [hStep, stepToken] at h
    cases hApply : applyToken u d <;> rw [hApply] at h <;> cases h
    exact ⟨hShape, hApply⟩

/-- The tokens `ts` are read from `p` on, and lead from one document to the other. -/
inductive Reads : Nat → Doc D → List (Token D) → Nat → Doc D → Prop where
  | nil (p : Nat) (d : Doc D) : Reads p d [] p d
  | cons {p q r : Nat} {d e f : Doc D} {t : Token D} {ts : List (Token D)}
      (head : step lib buf p d = .go t q e) (tail : Reads q e ts r f) :
      Reads p d (t :: ts) r f

variable {lib buf}

theorem Reads.of_go {p q r : Nat} {d e f : Doc D} {ts : List (Token D)} {t : Token D}
    (h : Reads lib buf p d ts q e) (hStep : step lib buf p d = .go t r f) :
    (q = p ∧ e = d) ∨ ∃ us, Reads lib buf r f us q e := by
  cases h with
  | nil => exact .inl ⟨rfl, rfl⟩
  | cons head tail =>
    rw [hStep] at head
    cases head
    exact .inr ⟨_, tail⟩

theorem Reads.of_stop {p q : Nat} {d e : Doc D} {ts : List (Token D)} {x : Ending D}
    (h : Reads lib buf p d ts q e) (hStep : step lib buf p d = .stop x) : q = p ∧ e = d := by
  cases h with
  | nil => exact ⟨rfl, rfl⟩
  | cons head _ =>
    rw [hStep] at head
    cases head

/-- Reading is deterministic: of two readings one continues the other. -/
theorem Reads.linear {p q r : Nat} {d e f : Doc D} {ts us : List (Token D)}
    (h : Reads lib buf p d ts q e) (h' : Reads lib buf p d us r f) :
    (∃ vs, Reads lib buf q e vs r f) ∨ ∃ vs, Reads lib buf r f vs q e := by
  induction h generalizing us with
  | nil => exact .inl ⟨us, h'⟩
  | cons head tail ih =>
    cases h' with
    | nil => exact .inr ⟨_, .cons head tail⟩
    | cons head' tail' =>
      rw [head] at head'
      cases head'
      exact ih tail'

/-- A reading that stops cannot go on elsewhere. -/
theorem Reads.stop_unique {p q r : Nat} {d e f : Doc D} {ts us : List (Token D)} {x y : Ending D}
    (h : Reads lib buf p d ts q e) (hx : step lib buf q e = .stop x)
    (h' : Reads lib buf p d us r f) (hy : step lib buf r f = .stop y) :
    q = r ∧ e = f ∧ x = y := by
  rcases h.linear h' with ⟨vs, hv⟩ | ⟨vs, hv⟩
  · cases hv with
    | nil => rw [hx] at hy; cases hy; exact ⟨rfl, rfl, rfl⟩
    | cons head _ => rw [hx] at head; cases head
  · cases hv with
    | nil => rw [hx] at hy; cases hy; exact ⟨rfl, rfl, rfl⟩
    | cons head _ => rw [hy] at head; cases head

end Reading

end Utu.Stackish
