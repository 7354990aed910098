import Mathlib

/-!
# Decimal numerals as byte strings

The printer is the canonical numeral of the core library, one byte a digit.
The reader is a left fold, so it also reads numerals with leading zeros; only
the printed form is canonical. Nothing here is bounded: a machine width is
imposed by the program that calls these functions.
-/

namespace Decimal
set_option autoImplicit false

def isDigit (c : UInt8) : Bool := 48 ≤ c && c ≤ 57

def value (digits : List UInt8) : Nat := digits.foldl (fun n c => 10 * n + (c.toNat - 48)) 0

def print (n : Nat) : List UInt8 := (Nat.toDigits 10 n).map (fun c => UInt8.ofNat c.toNat)

theorem isDigit_iff (c : UInt8) : isDigit c = true ↔ 48 ≤ c.toNat ∧ c.toNat ≤ 57 := by
  simp [isDigit, UInt8.le_iff_toNat_le]

theorem digitByte_toNat {d : Nat} (h : d < 10) : (UInt8.ofNat d.digitChar.toNat).toNat = 48 + d := by
  rw [Nat.toNat_digitChar_of_lt_ten h, UInt8.toNat_ofNat']
  omega

theorem print_small {n : Nat} (h : n < 10) : print n = [UInt8.ofNat n.digitChar.toNat] := by
  simp [print, Nat.toDigits_of_lt_base h]

theorem print_large {n : Nat} (h : 10 ≤ n) :
    print n = print (n / 10) ++ [UInt8.ofNat (n % 10).digitChar.toNat] := by
  simp [print, Nat.toDigits_of_base_le (by decide : 1 < 10) h]

theorem print_ne_nil (n : Nat) : print n ≠ [] := by
  simp [print]

theorem value_append_one (digits : List UInt8) (c : UInt8) :
    value (digits ++ [c]) = 10 * value digits + (c.toNat - 48) := by
  simp [value, List.foldl_append]

theorem isDigit_of_mem_print (n : Nat) : ∀ c ∈ print n, isDigit c = true := by
  induction n using Nat.strongRecOn with
  | ind n ih =>
    by_cases h : n < 10
    · intro c hc
      rw [print_small h, List.mem_singleton] at hc
      rw [hc, isDigit_iff, digitByte_toNat h]
      omega
    · intro c hc
      rw [print_large (by omega), List.mem_append, List.mem_singleton] at hc
      rcases hc with hc | hc
      · exact ih (n / 10) (by omega) c hc
      · rw [hc, isDigit_iff, digitByte_toNat (Nat.mod_lt n (by decide))]
        omega

theorem length_print_le {n k : Nat} (hk : 0 < k) (h : n < 10 ^ k) : (print n).length ≤ k := by
  induction k generalizing n with
  | zero => omega
  | succ k ih =>
    by_cases hSmall : n < 10
    · simp [print_small hSmall]
    · rw [print_large (by omega), List.length_append, List.length_singleton]
      cases k with
      | zero => omega
      | succ k =>
        have := ih (Nat.succ_pos k) (n := n / 10) (by rw [Nat.pow_succ] at h; omega)
        omega

/-- Reading a printed numeral recovers the number. -/
@[simp] theorem value_print (n : Nat) : value (print n) = n := by
  induction n using Nat.strongRecOn with
  | ind n ih =>
    by_cases h : n < 10
    · rw [print_small h]
      change 10 * 0 + ((UInt8.ofNat n.digitChar.toNat).toNat - 48) = n
      rw [digitByte_toNat h]
      omega
    · rw [print_large (by omega), value_append_one, ih (n / 10) (by omega),
        digitByte_toNat (Nat.mod_lt n (by decide))]
      omega

end Decimal
