import Utu.Bstring

/-!
# The generated scanner tables

The five tables and the two searches over them are those of the generated
scanner, indexed by pointer offset. A byte is compared as a signed `char`. The
theorem `transition_eq` replaces the searches by the machine they encode, one
line a character class; nothing after it looks into a table again.
-/

namespace Utu.Stackish
set_option autoImplicit false

inductive Action where
  | mark | number | float | string | start | blob | word | group | more | attrib
deriving DecidableEq, Repr

namespace Tables

def actions : List Nat := [
  0, 1, 0, 1, 1, 1, 2, 1,
  3, 1, 4, 1, 5, 1, 6, 1,
  7, 1, 8, 1, 9, 2, 0, 3,
  2, 1, 0, 2, 1, 4, 2, 1,
  7, 2, 2, 0, 2, 2, 4, 2,
  2, 7, 2, 6, 0, 2, 6, 4,
  2, 6, 7, 2, 9, 0, 2, 9,
  4, 2, 9, 7]

def keyOffsets : List Nat := [
  0, 0, 1, 2, 4, 7, 8, 10,
  13, 15, 19, 35, 51, 69, 87]

def transKeys : List Int := [
  34, 34, 48, 57, 58, 48, 57, 39,
  48, 57, 46, 48, 57, 48, 57, 65,
  90, 97, 122, 32, 34, 39, 43, 45,
  64, 91, 93, 9, 13, 48, 57, 65,
  90, 97, 122, 32, 34, 39, 43, 45,
  64, 91, 93, 9, 13, 48, 57, 65,
  90, 97, 122, 32, 34, 39, 43, 64,
  91, 93, 95, 9, 13, 45, 46, 48,
  58, 65, 90, 97, 122, 32, 34, 39,
  43, 64, 91, 93, 95, 9, 13, 45,
  46, 48, 58, 65, 90, 97, 122, 32,
  34, 39, 43, 45, 46, 64, 91, 93,
  9, 13, 48, 57, 65, 90, 97, 122,
  0]

def singleLengths : List Nat := [
  0, 1, 1, 0, 1, 1, 0, 1,
  0, 0, 8, 8, 8, 8, 9]

def rangeLengths : List Nat := [
  0, 0, 0, 1, 1, 0, 1, 1,
  1, 2, 4, 4, 5, 5, 4]

def indexOffsets : List Nat := [
  0, 0, 2, 4, 6, 9, 11, 13,
  16, 18, 21, 34, 47, 61, 75]

def transTargs : List Nat := [
  10, 2, 10, 2, 4, 0, 5, 4,
  0, 10, 0, 7, 0, 8, 7, 0,
  11, 0, 12, 12, 0, 10, 1, 3,
  6, 6, 9, 10, 10, 10, 14, 13,
  13, 0, 10, 1, 3, 6, 6, 9,
  10, 10, 10, 11, 13, 13, 0, 10,
  1, 3, 6, 9, 10, 10, 12, 10,
  12, 12, 12, 12, 0, 10, 1, 3,
  6, 9, 10, 10, 13, 10, 13, 13,
  13, 13, 0, 10, 1, 3, 6, 6,
  8, 9, 10, 10, 10, 14, 13, 13,
  0, 0]

def transActions : List Nat := [
  21, 1, 7, 0, 1, 0, 17, 0,
  0, 11, 0, 0, 0, 0, 0, 0,
  0, 0, 0, 0, 0, 0, 0, 0,
  1, 1, 1, 9, 15, 0, 1, 1,
  1, 0, 5, 5, 5, 33, 33, 33,
  36, 39, 5, 0, 33, 33, 0, 19,
  19, 19, 51, 51, 54, 57, 0, 19,
  0, 0, 0, 0, 0, 13, 13, 13,
  42, 42, 45, 48, 0, 13, 0, 0,
  0, 0, 0, 3, 3, 3, 24, 24,
  0, 24, 27, 30, 3, 0, 24, 24,
  0, 0]

end Tables

def start : Nat := 10
def firstFinal : Nat := 10
def errorState : Nat := 0

/-- The value of `*p` as the scanner compares it. -/
def charOf (c : UInt8) : Int := if c < 128 then c.toNat else c.toNat - 256

/-- Binary search over the single keys from `keys`; offsets are relative to it. Every probe
drops a key, so `fuel` never runs out when it starts at the number of keys. -/
def searchSingle (keys : Nat) (c : Int) : Nat → Int → Int → Option Nat
  | 0, _, _ => none
  | fuel + 1, lower, upper =>
    if upper < lower then none
    else
      let mid := lower + (upper - lower) / 2
      let key := Tables.transKeys.getD (keys + mid.toNat) 0
      if c < key then searchSingle keys c fuel lower (mid - 1)
      else if key < c then searchSingle keys c fuel (mid + 1) upper
      else some mid.toNat

/-- Binary search over the key pairs; `& ~1` keeps the probe on a lower bound. -/
def searchRange (keys : Nat) (c : Int) : Nat → Int → Int → Option Nat
  | 0, _, _ => none
  | fuel + 1, lower, upper =>
    if upper < lower then none
    else
      let mid := lower + (upper - lower) / 2 / 2 * 2
      if c < Tables.transKeys.getD (keys + mid.toNat) 0 then searchRange keys c fuel lower (mid - 2)
      else if Tables.transKeys.getD (keys + mid.toNat + 1) 0 < c then
        searchRange keys c fuel (mid + 2) upper
      else some (mid.toNat / 2)

def findTrans (cs : Nat) (c : UInt8) : Nat :=
  let keys := Tables.keyOffsets.getD cs 0
  let trans := Tables.indexOffsets.getD cs 0
  let singles := Tables.singleLengths.getD cs 0
  let ranges := Tables.rangeLengths.getD cs 0
  match searchSingle keys (charOf c) singles 0 (singles - 1) with
  | some i => trans + i
  | none =>
    match searchRange (keys + singles) (charOf c) ranges 0 (2 * ranges - 2) with
    | some i => trans + singles + i
    | none => trans + singles + ranges

def actionOf : Nat → Option Action
  | 0 => some .mark
  | 1 => some .number
  | 2 => some .float
  | 3 => some .string
  | 4 => some .start
  | 5 => some .blob
  | 6 => some .word
  | 7 => some .group
  | 8 => some .more
  | 9 => some .attrib
  | _ => none

/-- The action list at an index of the action table: a count and that many actions. -/
def actionsAt (acts : Nat) : List Action :=
  if acts = 0 then []
  else ((Tables.actions.drop (acts + 1)).take (Tables.actions.getD acts 0)).filterMap actionOf

/-- One table lookup: the target state and the actions to run on the way. -/
def transition (cs : Nat) (c : UInt8) : Nat × List Action :=
  let trans := findTrans cs c
  (Tables.transTargs.getD trans 0, actionsAt (Tables.transActions.getD trans 0))

/-! ## The machine the tables encode -/

def isAlpha (c : UInt8) : Bool := (65 ≤ c && c ≤ 90) || (97 ≤ c && c ≤ 122)

def isWordChar (c : UInt8) : Bool :=
  isAlpha c || Decimal.isDigit c || c == 45 || c == 95 || c == 46 || c == 58

/-- Transitions between tokens; state `0` is the error state. -/
def idle (c : UInt8) : Nat × List Action :=
  if isSpace c then (10, [])
  else if c = 34 then (1, [])
  else if c = 39 then (3, [])
  else if c = 43 ∨ c = 45 then (6, [.mark])
  else if c = 64 then (9, [.mark])
  else if c = 91 then (10, [.start])
  else if c = 93 then (10, [.group])
  else if Decimal.isDigit c then (14, [.mark])
  else if isAlpha c then (13, [.mark])
  else (0, [])

/-- A token that ends where the next one begins: its action runs first. -/
def flush (act : Action) (c : UInt8) : Nat × List Action :=
  if (idle c).1 = 0 then (0, []) else ((idle c).1, act :: (idle c).2)

def machine (cs : Nat) (c : UInt8) : Nat × List Action :=
  match cs with
  | 1 => if c = 34 then (10, [.mark, .string]) else (2, [.mark])
  | 2 => if c = 34 then (10, [.string]) else (2, [])
  | 3 => if Decimal.isDigit c then (4, [.mark]) else (0, [])
  | 4 => if c = 58 then (5, [.more]) else if Decimal.isDigit c then (4, []) else (0, [])
  | 5 => if c = 39 then (10, [.blob]) else (0, [])
  | 6 => if Decimal.isDigit c then (7, []) else (0, [])
  | 7 => if c = 46 then (8, []) else if Decimal.isDigit c then (7, []) else (0, [])
  | 8 => if Decimal.isDigit c then (11, []) else (0, [])
  | 9 => if isAlpha c then (12, []) else (0, [])
  | 10 => idle c
  | 11 => if Decimal.isDigit c then (11, []) else flush .float c
  | 12 => if isWordChar c then (12, []) else flush .attrib c
  | 13 => if isWordChar c then (13, []) else flush .word c
  | 14 =>
    if c = 46 then (8, []) else if Decimal.isDigit c then (14, []) else flush .number c
  | _ => (0, [])

theorem transition_table : ∀ cs < 15, ∀ c < 256, 1 ≤ cs →
    transition cs (UInt8.ofNat c) = machine cs (UInt8.ofNat c) := by
  decide +kernel

/-- The searches over the generated tables compute the machine. -/
theorem transition_eq {cs : Nat} (hcs : 1 ≤ cs ∧ cs ≤ 14) (c : UInt8) :
    transition cs c = machine cs c := by
  simpa using transition_table cs (by omega) c.toNat c.toNat_lt hcs.1

end Utu.Stackish
