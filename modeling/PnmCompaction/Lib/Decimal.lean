import Mathlib.Data.Nat.Digits.Defs
import Mathlib.Data.Nat.Digits.Lemmas

/-!
# Decimal numerals

`numeral n` lists the digits of `n`, most significant first, with one digit for
zero; `value` reads a list of digits from left to right.
-/

namespace PnmCompaction.Lib.Decimal

def numeral (n : ℕ) : List ℕ := if n = 0 then [0] else (Nat.digits 10 n).reverse

def value (digits : List ℕ) : ℕ := digits.foldl (fun v d => 10 * v + d) 0

theorem numeral_ne_nil (n : ℕ) : numeral n ≠ [] := by
  unfold numeral
  split
  · exact List.cons_ne_nil 0 []
  · next h => exact mt List.reverse_eq_nil_iff.mp (Nat.digits_ne_nil_iff_ne_zero.mpr h)

theorem lt_ten_of_mem_numeral {n d : ℕ} (h : d ∈ numeral n) : d < 10 := by
  unfold numeral at h
  split at h
  · rw [List.mem_singleton.mp h]
    exact Nat.succ_pos 9
  · exact Nat.digits_lt_base (by decide) (List.mem_reverse.mp h)

theorem value_reverse (digits : List ℕ) : value digits.reverse = Nat.ofDigits 10 digits := by
  rw [value, List.foldl_reverse, Nat.ofDigits_eq_foldr]
  simp only [Nat.cast_id, Nat.add_comm]

theorem value_numeral (n : ℕ) : value (numeral n) = n := by
  unfold numeral
  split
  · next h => exact h.symm
  · rw [value_reverse, Nat.ofDigits_digits]

end PnmCompaction.Lib.Decimal
