import Utu.Lib.Comparator
import Utu.Lib.Decimal

/-!
# Byte strings and the C library calls around them

A `bstring` is either NULL or a byte list; every live one is shorter than
`INT_MAX`, and the appending calls below say what happens at that limit. The
word sizes are those of the LP64 build: `int` has 32 bits, `size_t` and
`unsigned long` have 64.
-/

namespace Utu
set_option autoImplicit false

abbrev Bytes := List UInt8

/-- The bytes of a C string literal. -/
def ascii (s : String) : Bytes := s.toList.map fun c => c.toNat.toUInt8

/-- What ends the process instead of letting a call return. -/
inductive Fault where
  | assertFailed (what : String)
  | nullPointer
  | badPointer
  | heapOverflow
  | useAfterFree
  | outOfFuel
deriving DecidableEq, Repr

abbrev Run := Except Fault

/-- A call whose model takes fuel comes to `r`: its result, or the fault that stops it. -/
def Finishes {α : Type} (call : Nat → Run α) (r : Run α) : Prop :=
  r ≠ .error .outOfFuel ∧ ∃ fuel, call fuel = r

/-- More fuel does not change what a call comes to. -/
def Stable {α : Type} (call : Nat → Run α) : Prop :=
  ∀ fuel, call fuel ≠ .error .outOfFuel → call (fuel + 1) = call fuel

theorem Stable.add {α : Type} {call : Nat → Run α} (hStable : Stable call) {fuel : Nat}
    (h : call fuel ≠ .error .outOfFuel) (k : Nat) : call (fuel + k) = call fuel := by
  induction k with
  | zero => rfl
  | succ k ih => rw [← Nat.add_assoc, hStable _ (by rwa [ih]), ih]

theorem Finishes.unique {α : Type} {call : Nat → Run α} {r r' : Run α} (hStable : Stable call)
    (h : Finishes call r) (h' : Finishes call r') : r = r' := by
  obtain ⟨hr, n, rfl⟩ := h
  obtain ⟨hr', m, rfl⟩ := h'
  rw [← hStable.add hr m, ← hStable.add hr' n, Nat.add_comm]

def intMax : Nat := 2 ^ 31 - 1

def sizeMod : Nat := 2 ^ 64

def ERANGE : Nat := 34

/-- The conversion of a `size_t` argument to an `int` parameter. -/
def toInt (n : Nat) : Int :=
  if n % 2 ^ 32 < 2 ^ 31 then (n % 2 ^ 32 : Nat) else (n % 2 ^ 32 : Nat) - 2 ^ 32

theorem toInt_small {n : Nat} (h : n < 2 ^ 31) : toInt n = n := by
  have hMod : n % 2 ^ 32 = n := Nat.mod_eq_of_lt (by omega)
  rw [toInt, hMod, if_pos h]

theorem toInt_negative {n : Nat} (hPos : 0 < n) (h : n ≤ 2 ^ 31) : toInt (sizeMod - n) < 0 := by
  have hMod : (sizeMod - n) % 2 ^ 32 = 2 ^ 32 - n := by
    simp only [sizeMod]
    omega
  simp only [toInt, hMod]
  split <;> omega

def isSpace (c : UInt8) : Bool := c == 32 || (9 ≤ c && c ≤ 13)

/-- The bytes `%s` prints: up to the first NUL, and glibc's text for NULL. -/
def cstr : Option Bytes → Bytes
  | none => [40, 110, 117, 108, 108, 41]
  | some s => s.takeWhile (· ≠ 0)

def blength (b : Option Bytes) : Nat := (b.getD []).length

def blk2bstr (blk : Bytes) (len : Int) : Option Bytes :=
  if len < 0 then none else some (blk.take len.toNat)

def bchar (b : Bytes) (pos : Nat) : UInt8 := b.getD pos 0

/-- Equality of two bstrings; a NULL argument is an error, and `-1` is a true value in C. -/
def biseq : Option Bytes → Option Bytes → Int
  | some a, some b => if a = b then 1 else 0
  | _, _ => -1

def biseqcstr (b : Bytes) (s : Bytes) : Bool := b == s

/-- `char` is signed in this build. -/
def schar (c : UInt8) : Int := c.toInt8.toInt

/-- The loop of `bstrcmp` and what follows it: a NUL in both strings ends the comparison. -/
def bstrcmpLoop : Bytes → Bytes → Int
  | [], [] => 0
  | _ :: _, [] => 1
  | [], _ :: _ => -1
  | x :: xs, y :: ys =>
    if schar x - schar y ≠ 0 then schar x - schar y else if x = 0 then 0 else bstrcmpLoop xs ys

/-- `bstrcmp`, with `SHRT_MIN` for a NULL argument. -/
def bstrcmp : Option Bytes → Option Bytes → Int
  | some a, some b => bstrcmpLoop a b
  | _, _ => -32768

/-- `bfromcstr` on the data of a bstring: the copy ends at the first NUL. -/
def bfromcstr (data : Option Bytes) : Option Bytes := data.map (·.takeWhile (· ≠ 0))

theorem schar_injective : Function.Injective schar := by
  intro x y h
  exact UInt8.toBitVec_inj.mp (BitVec.toInt_inj.mp h)

/-- Without a NUL in the first string the order is the lexicographic one. -/
theorem bstrcmpLoop_eq_lex {a : Bytes} (hNul : 0 ∉ a) (b : Bytes) :
    bstrcmpLoop a b = Comparator.lex schar a b := by
  induction a generalizing b with
  | nil => cases b <;> rfl
  | cons x xs ih =>
    cases b with
    | nil => rfl
    | cons y ys =>
      obtain ⟨hx, hxs⟩ := not_or.mp (List.mem_cons.not.mp hNul)
      simp only [bstrcmpLoop, Comparator.lex, ne_comm.mp hx, ↓reduceIte, ih hxs, ne_eq, sub_eq_zero]
      split <;> simp_all

def bmidstr (b : Bytes) (left len : Nat) : Bytes := (b.drop left).take len

/-- The length sum overflows `int` before the allocation test, which then passes. -/
def bconcat (b0 : Bytes) : Option Bytes → Run (Bool × Bytes)
  | none => pure (false, b0)
  | some b1 =>
    if b0.length + b1.length + 1 ≤ intMax then pure (true, b0 ++ b1) else throw .heapOverflow

def bconchar (b : Bytes) (c : UInt8) : Bool × Bytes :=
  if b.length + 2 ≤ intMax then (true, b ++ [c]) else (false, b)

/-- The retry loop of `bformata` on an output of `len` bytes with a buffer of `n`.
A size past `INT_MAX` has wrapped to a negative one, which `balloc` refuses. -/
def bformataLoop (len : Nat) : Nat → Nat → Bool
  | 0, _ => false
  | fuel + 1, n =>
    if min len n < n then true
    else
      let next := if n < len then len else n + n
      if next + 2 ≤ intMax then bformataLoop len fuel next else false

/-- Append formatted output. Every format used is shorter than nine bytes, so the first
buffer has `START_VSNBUFF` bytes; the loop never needs a fourth round. -/
def bformata (b text : Bytes) : Run (Bool × Bytes) :=
  if bformataLoop text.length 3 16 then bconcat b (some text) else pure (false, b)

/-- A new bstring of formatted output; its first buffer is twice as long as the format. -/
def bformat (format : Nat) (text : Bytes) : Option Bytes :=
  if bformataLoop text.length 3 (max (2 * format) 16) then some text else none

theorem bformataLoop_iff (len : Nat) : bformataLoop len 3 16 = true ↔ 2 * len + 2 ≤ intMax := by
  simp only [bformataLoop, intMax]
  grind

structure Strtoul where
  value : Nat
  stop : Nat
  range : Bool
deriving DecidableEq, Repr

/-- `strtoul(text, &end, 10)`; `range` says that errno was set to `ERANGE`. -/
def strtoul (text : Bytes) : Strtoul :=
  let blanks := (text.takeWhile isSpace).length
  let rest := text.drop blanks
  let negative := rest.head? == some 45
  let sign := if negative || rest.head? == some 43 then 1 else 0
  let digits := (rest.drop sign).takeWhile Decimal.isDigit
  if digits.isEmpty then ⟨0, 0, false⟩
  else
    let value := Decimal.value digits
    let stop := blanks + sign + digits.length
    if sizeMod ≤ value then ⟨sizeMod - 1, stop, true⟩
    else ⟨if negative then (sizeMod - value) % sizeMod else value, stop, false⟩

theorem isSpace_of_isDigit {c : UInt8} (h : Decimal.isDigit c = true) : isSpace c = false := by
  rw [Decimal.isDigit_iff] at h
  simp only [isSpace, Bool.or_eq_false_iff, beq_eq_false_iff_ne, Bool.and_eq_false_iff,
    decide_eq_false_iff_not, UInt8.le_iff_toNat_le, ne_eq, ← UInt8.toNat_inj]
  simp
  omega

theorem takeWhile_append_stop {α : Type} {p : α → Bool} {l : List α} (hAll : ∀ a ∈ l, p a = true)
    {rest : List α} (hStop : ∀ a, rest.head? = some a → p a = false) :
    (l ++ rest).takeWhile p = l := by
  rw [List.takeWhile_append_of_pos hAll]
  cases rest with
  | nil => simp
  | cons a rest => simp [hStop a rfl]

/-- A list as its longest prefix in `p` and the rest. -/
theorem exists_run {α : Type} (p : α → Bool) (l : List α) :
    ∃ run rest, l = run ++ rest ∧ l.takeWhile p = run ∧ l.drop run.length = rest ∧
      (∀ a ∈ run, p a = true) ∧ ∀ a, rest.head? = some a → p a = false := by
  have hSplit : l = l.takeWhile p ++ l.dropWhile p := List.takeWhile_append_dropWhile.symm
  refine ⟨l.takeWhile p, l.dropWhile p, hSplit, rfl, ?_, ?_, ?_⟩
  · have hPrefix := List.prefix_iff_eq_append.mp (List.takeWhile_prefix p (l := l))
    exact List.append_cancel_left (hPrefix.trans hSplit)
  · exact fun a ha => List.mem_takeWhile_imp ha
  · intro a ha
    have hStop := List.head?_dropWhile_not p l
    simpa [ha] using hStop

theorem exists_run_cons {α : Type} {p : α → Bool} {a : α} (ha : p a = true) (l : List α) :
    ∃ run rest, l = run ++ rest ∧ (a :: l).takeWhile p = a :: run ∧
      (a :: l).drop (a :: run).length = rest ∧ (∀ b ∈ a :: run, p b = true) ∧
      ∀ b, rest.head? = some b → p b = false := by
  obtain ⟨run, rest, hSplit, hTake, hDrop, hAll, hStop⟩ := exists_run p l
  exact ⟨run, rest, hSplit, by simp [ha, hTake], by simpa using hDrop, by simpa [ha] using hAll, hStop⟩

/-- On a run of digits the call reads exactly the run. -/
theorem strtoul_digits {digits rest : Bytes} (hNe : digits ≠ [])
    (hAll : ∀ c ∈ digits, Decimal.isDigit c = true)
    (hStop : ∀ c, rest.head? = some c → Decimal.isDigit c = false) :
    strtoul (digits ++ rest) =
      if sizeMod ≤ Decimal.value digits then ⟨sizeMod - 1, digits.length, true⟩
      else ⟨Decimal.value digits, digits.length, false⟩ := by
  obtain ⟨c, tail, rfl⟩ := List.exists_cons_of_ne_nil hNe
  have hRun := takeWhile_append_stop hAll hStop
  have hc := hAll c List.mem_cons_self
  rw [List.cons_append] at hRun ⊢
  have hSpace : (c :: (tail ++ rest)).takeWhile isSpace = [] := by
    simp [isSpace_of_isDigit hc]
  rw [Decimal.isDigit_iff] at hc
  have hMinus : (c == 45) = false := by
    rw [beq_eq_false_iff_ne]
    rintro rfl
    exact absurd hc (by decide)
  have hPlus : (c == 43) = false := by
    rw [beq_eq_false_iff_ne]
    rintro rfl
    exact absurd hc (by decide)
  simp [strtoul, hSpace, hMinus, hPlus, hRun]

end Utu
