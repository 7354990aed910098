import Utu.Stackish.Token
import Utu.Lib.Outcome

/-!
# The Ruby implementation of Stackish

`Parser` and `Emitter` of `stackish.rb`. The parser tries an ordered list of
regular expressions at the scanner's position and keeps what it has read on one
stack, with the starts of the open groups on a second one. Strings are byte
strings.
-/

namespace Utu.Ruby
open Stackish
set_option autoImplicit false

/-- What the parser builds: a `Hash` has one key, and a `String` knows whether it is a blob. `nil`
is what an empty `Array` gives for its last element. -/
inductive Element (D : Type) where
  | hash (name : Bytes) (value : Element D)
  | array (elements : List (Element D))
  | string (s : Bytes) (isBlob : Bool)
  | integer (n : Nat)
  | float (x : D)
  | nil

inductive TokenName where
  | space | mark | group | colon | squote | attrib | float | number | word | string
deriving DecidableEq, Repr

/-- The exceptions, with the numbers their messages report. `noMethod` is the call of a method that
the parser does not have, and `unknownType` the one the emitter raises. -/
inductive Failure where
  | invalid (pos : Nat)
  | incomplete (words : Nat)
  | expected (name : TokenName) (pos : Nat)
  | notEnough (pos more : Nat)
  | unbalanced (pos : Nat)
  | noMethod
  | unknownType
  | outOfFuel
deriving DecidableEq, Repr

/-- `String#to_f` and `Float#to_s` -/
structure Floats (D : Type) where
  toF : Bytes → D
  toS : D → Bytes

/-! ## Regular expressions -/

section Regex

/-- `\w` -/
def isWordByte (c : UInt8) : Bool := isAlpha c || Decimal.isDigit c || c == 95

def oneByte (c : UInt8) : Bytes → Option Bytes
  | [] => none
  | b :: _ => if b = c then some [b] else none

def someBytes (p : UInt8 → Bool) (s : Bytes) : Option Bytes :=
  if s.takeWhile p = [] then none else some (s.takeWhile p)

/-- `(\+|\-)?` -/
def signText : Bytes → Bytes
  | [] => []
  | c :: _ => if c = 43 ∨ c = 45 then [c] else []

/-- `(\+|\-)?\d+\.\d+` -/
def floatText (s : Bytes) : Option Bytes :=
  let sign := signText s
  let whole := (s.drop sign.length).takeWhile Decimal.isDigit
  match s.drop (sign.length + whole.length) with
  | [] => none
  | c :: rest =>
    let fraction := rest.takeWhile Decimal.isDigit
    if c = 46 ∧ whole ≠ [] ∧ fraction ≠ [] then some (sign ++ whole ++ c :: fraction) else none

/-- `\w+(\w|\-|_|\.|:)*` -/
def wordText : Bytes → Option Bytes
  | [] => none
  | c :: rest => if isWordByte c then some (c :: rest.takeWhile isWordChar) else none

/-- `".*?"`; the dot does not match a newline. -/
def stringText : Bytes → Option Bytes
  | [] => none
  | c :: rest =>
    let body := rest.takeWhile fun b => b != 34 && b != 10
    if c = 34 ∧ (rest.drop body.length).head? = some 34 then some (c :: body ++ [34]) else none

/-- What the scanner's `check` and `scan` match at the start of the text. -/
def check : TokenName → Bytes → Option Bytes
  | .space => someBytes isSpace
  | .mark => oneByte 91
  | .group => oneByte 93
  | .colon => oneByte 58
  | .squote => oneByte 39
  | .attrib => oneByte 64
  | .float => floatText
  | .number => someBytes Decimal.isDigit
  | .word => wordText
  | .string => stringText

/-- The order of `TOKENS` -/
def tokenNames : List TokenName :=
  [.space, .mark, .group, .colon, .squote, .attrib, .float, .number, .word, .string]

def tryToken (s : Bytes) (r : TokenName) : Option (TokenName × Bytes) :=
  match check r s with
  | none => none
  | some tok => if 0 < tok.length then some (r, tok) else none

/-- The first of the names that matches something. -/
def firstToken (s : Bytes) : Option (TokenName × Bytes) := tokenNames.findSome? (tryToken s)

end Regex

/-! ## The parser -/

/-- The parse stack with its top at the end, and the marks with the last one first. -/
structure Stacks (D : Type) where
  parseStack : List (Element D)
  markStack : List Nat

/-- The scanner's position, the text from there on, and the stacks. -/
structure Parser (D : Type) where
  pos : Nat
  rest : Bytes
  stack : Stacks D

section Parser
variable {D : Type}

namespace Stacks

def mark (s : Stacks D) : Stacks D := { s with markStack := s.parseStack.length :: s.markStack }

def push (x : Element D) (s : Stacks D) : Stacks D := { s with parseStack := s.parseStack ++ [x] }

def pop (s : Stacks D) : Element D × Stacks D :=
  (s.parseStack.getLast?.getD .nil, { s with parseStack := s.parseStack.dropLast })

/-- Everything above the last mark; `slice!` from behind the end is `nil`. -/
def collapse (s : Stacks D) : Option (Element D × Stacks D) :=
  match s.markStack with
  | [] => none
  | top :: marks =>
    some (if top ≤ s.parseStack.length then .array (s.parseStack.drop top) else .nil,
      ⟨s.parseStack.take top, marks⟩)

end Stacks

namespace Parser

def push (x : Element D) (p : Parser D) : Parser D := { p with stack := p.stack.push x }

def skip (length : Nat) (p : Parser D) : Except Failure (Parser D) :=
  if length ≤ p.rest.length then
    .ok { p with pos := p.pos + length, rest := p.rest.drop length }
  else .error (.notEnough p.pos (length - p.rest.length))

def matchToken (name : TokenName) (p : Parser D) : Except Failure (Bytes × Parser D) :=
  match check name p.rest with
  | none => .error (.expected name p.pos)
  | some m =>
    if m.length = 0 then .error (.expected name p.pos)
    else .ok (m, { p with pos := p.pos + m.length, rest := p.rest.drop m.length })

def collapse (p : Parser D) : Except Failure (Element D × Parser D) :=
  match p.stack.collapse with
  | none => .error (.unbalanced p.pos)
  | some (x, stack) => .ok (x, { p with stack := stack })

def squote (p : Parser D) : Except Failure (Parser D) := do
  let (size, p) ← p.matchToken .number
  let (_, p) ← p.matchToken .colon
  let blob := p.rest.take (Decimal.value size)
  let p ← p.skip (Decimal.value size)
  let (_, p) ← p.matchToken .squote
  return p.push (.string blob true)

def attrib (token : Bytes) (p : Parser D) : Except Failure (Parser D) := do
  let (word, p) ← p.matchToken .word
  let (x, stack) := p.stack.pop
  return { p with stack := stack.push (.hash (token ++ word) x) }

/-- The method a token is sent to. -/
def send (floats : Floats D) (name : TokenName) (token : Bytes) (p : Parser D) :
    Except Failure (Parser D) :=
  match name with
  | .space => .ok p
  | .mark => .ok { p with stack := p.stack.mark }
  | .group => do
    let (x, p) ← p.collapse
    return p.push x
  | .colon => .error .noMethod
  | .squote => p.squote
  | .attrib => p.attrib token
  | .float => .ok (p.push (.float (floats.toF token)))
  | .number => .ok (p.push (.integer (Decimal.value token)))
  | .word => do
    let (x, p) ← p.collapse
    return p.push (.hash token x)
  | .string => .ok (p.push (.string (token.tail.dropLast) false))

/-- One round of the loop of `process` -/
def step (floats : Floats D) (p : Parser D) : Except Failure (Parser D) :=
  match firstToken p.rest with
  | none => .error (.invalid p.pos)
  | some (name, token) => do
    let p ← p.skip token.length
    p.send floats name token

def loop (floats : Floats D) : Nat → Parser D → Except Failure (Parser D)
  | 0, _ => .error .outOfFuel
  | fuel + 1, p => if p.rest.isEmpty then .ok p else p.step floats >>= loop floats fuel

/-- `Parser#process`. Every round takes a byte or more. -/
def process (floats : Floats D) (text : Bytes) : Except Failure (List (Element D)) := do
  let p ← loop floats (text.length + 1) ⟨0, text, ⟨[], []⟩⟩
  if p.stack.markStack.isEmpty then return p.stack.parseStack
  else throw (.incomplete p.stack.markStack.length)

end Parser

/-! ## The emitter -/

mutual

/-- `convert`, as the texts that `join` finds in the nested arrays it returns. -/
def convert (floats : Floats D) : Element D → Bool → Except Failure (List Bytes)
  | .hash name value, _ => do
    let texts ← convert floats value (name.head? != some 64)
    return texts ++ [name]
  | .array elements, named => do
    let texts ← convertAll floats elements
    return [91] :: texts ++ (if named then [] else [[93]])
  | .string s true, _ => .ok [39 :: Decimal.print s.length ++ [58] ++ s ++ [39]]
  | .string s false, _ => .ok [34 :: s ++ [34]]
  | .integer n, _ => .ok [Decimal.print n]
  | .float x, _ => .ok [floats.toS x]
  | .nil, _ => .error .unknownType

def convertAll (floats : Floats D) : List (Element D) → Except Failure (List Bytes)
  | [] => .ok []
  | x :: xs => do
    let texts ← convert floats x false
    let more ← convertAll floats xs
    return texts ++ more

end

/-- `Emitter#process` -/
def emit (floats : Floats D) (stackish : List (Element D)) : Except Failure Bytes := do
  let texts ← convertAll floats stackish
  return [32].intercalate texts ++ [32, 10]

end Parser

/-! ## The loop comes to an end -/

section Progress
variable {D : Type} {floats : Floats D} {p q : Parser D}

theorem Parser.skip_rest {n : Nat} (h : p.skip n = .ok q) :
    n ≤ p.rest.length ∧ q.rest.length = p.rest.length - n := by
  simp only [Parser.skip] at h
  split at h
  · rename_i hRoom
    cases h
    exact ⟨hRoom, List.length_drop⟩
  · cases h

theorem Parser.matchToken_rest {name : TokenName} {m : Bytes}
    (h : p.matchToken name = .ok (m, q)) : q.rest.length ≤ p.rest.length := by
  simp only [Parser.matchToken] at h
  split at h
  · cases h
  · split at h
    · cases h
    · cases h
      simp

theorem Parser.collapse_rest {x : Element D} (h : p.collapse = .ok (x, q)) : q.rest = p.rest := by
  simp only [Parser.collapse] at h
  split at h
  · cases h
  · cases h
    rfl

/-- No method gives text back. -/
theorem Parser.send_rest {name : TokenName} {token : Bytes} (h : p.send floats name token = .ok q) :
    q.rest.length ≤ p.rest.length := by
  cases name with
  | space | mark | float | number | string =>
    cases h
    exact Nat.le_refl _
  | colon => cases h
  | group | word =>
    obtain ⟨⟨x, p'⟩, hCollapse, h⟩ := Outcome.bind_eq_ok_iff.mp h
    cases h
    change p'.rest.length ≤ _
    rw [Parser.collapse_rest hCollapse]
  | attrib =>
    obtain ⟨⟨word, p'⟩, hWord, h⟩ := Outcome.bind_eq_ok_iff.mp h
    cases h
    change p'.rest.length ≤ _
    exact Parser.matchToken_rest hWord
  | squote =>
    obtain ⟨⟨size, p₁⟩, hSize, h⟩ := Outcome.bind_eq_ok_iff.mp h
    obtain ⟨⟨_, p₂⟩, hColon, h⟩ := Outcome.bind_eq_ok_iff.mp h
    obtain ⟨p₃, hSkip, h⟩ := Outcome.bind_eq_ok_iff.mp h
    obtain ⟨⟨_, p₄⟩, hQuote, h⟩ := Outcome.bind_eq_ok_iff.mp h
    cases h
    have hSize := Parser.matchToken_rest hSize
    have hColon := Parser.matchToken_rest hColon
    have hSkip := (Parser.skip_rest hSkip).2
    have hQuote := Parser.matchToken_rest hQuote
    change p₄.rest.length ≤ _
    omega

theorem firstToken_pos {s tok : Bytes} {name : TokenName} (h : firstToken s = some (name, tok)) :
    0 < tok.length := by
  obtain ⟨r, -, hr⟩ := List.exists_of_findSome?_eq_some h
  simp only [tryToken] at hr
  split at hr
  · cases hr
  · split at hr
    · rename_i hPos
      cases hr
      exact hPos
    · cases hr

theorem Parser.step_rest (h : p.step floats = .ok q) : q.rest.length < p.rest.length := by
  simp only [Parser.step] at h
  split at h
  · cases h
  · rename_i name token hFirst
    obtain ⟨p', hSkip, hSend⟩ := Outcome.bind_eq_ok_iff.mp h
    have hPos := firstToken_pos hFirst
    have hSkip := Parser.skip_rest hSkip
    have hSend := Parser.send_rest hSend
    omega

/-- More rounds than bytes are never used up. -/
theorem Parser.loop_stable {m n : Nat} (hm : p.rest.length < m) (hn : p.rest.length < n) :
    p.loop floats m = p.loop floats n := by
  induction m generalizing p n with
  | zero => omega
  | succ m ih =>
    obtain ⟨n, rfl⟩ : ∃ k, n = k + 1 := ⟨n - 1, by omega⟩
    simp only [Parser.loop]
    split
    · rfl
    · cases hStep : p.step floats with
      | error e => rfl
      | ok q =>
        have hRest := Parser.step_rest hStep
        exact ih (by omega) (by omega)

/-- The loop with as many rounds as it may need. -/
def Parser.run (floats : Floats D) (p : Parser D) : Except Failure (Parser D) :=
  p.loop floats (p.rest.length + 1)

theorem Parser.run_done (h : p.rest = []) : p.run floats = .ok p := by
  simp [Parser.run, Parser.loop, h]

theorem Parser.run_step (h : p.step floats = .ok q) : p.run floats = q.run floats := by
  have hRest := Parser.step_rest h
  have hSome : p.rest.isEmpty = false := List.isEmpty_eq_false_iff.mpr (List.ne_nil_of_length_pos (by omega))
  have hLoop : p.run floats = q.loop floats p.rest.length := by
    simp only [Parser.run, Parser.loop, hSome, h]
    rfl
  rw [hLoop]
  exact Parser.loop_stable hRest (Nat.lt_succ_self _)

theorem Parser.run_error {e : Failure} (hRest : p.rest ≠ []) (h : p.step floats = .error e) :
    p.run floats = .error e := by
  simp only [Parser.run, Parser.loop, List.isEmpty_eq_false_iff.mpr hRest, h]
  rfl

end Progress

end Utu.Ruby
