import Mathlib.Data.Nat.Digits.Defs
import Mathlib.Data.Nat.Digits.Lemmas
import Mathlib.Data.Fin.Basic

/-!
# Fixed-width little-endian numbers

`leBytes w n` stores `n` in exactly `w` bytes, least significant first; the
digits above position `w` are lost, as they are when a wider integer is cast
to a `w`-byte one. `leVal` reads a byte string back through `Nat.ofDigits`.
-/

namespace PnmCompaction.Lib.LittleEndian

abbrev Byte := Fin 256

-- the one proof that every byte literal refers to
instance neZeroByte : NeZero 256 := ⟨by decide⟩

abbrev Bytes := List Byte

def leBytes : ℕ → ℕ → Bytes
  | 0, _ => []
  | w + 1, n => Fin.ofNat 256 n :: leBytes w (n / 256)

def leVal (bs : Bytes) : ℕ := Nat.ofDigits 256 (bs.map Fin.val)

@[simp] theorem leBytes_length (w n : ℕ) : (leBytes w n).length = w := by
  induction w generalizing n with
  | zero => rfl
  | succ w ih => simp only [leBytes, List.length_cons, ih]

theorem leVal_cons (b : Byte) (bs : Bytes) : leVal (b :: bs) = b.val + 256 * leVal bs := by
  simp only [leVal, List.map_cons, Nat.ofDigits_cons]

/-- Storing in `w` bytes and reading back keeps the value modulo `256 ^ w`. -/
theorem leVal_leBytes (w n : ℕ) : leVal (leBytes w n) = n % 256 ^ w := by
  induction w generalizing n with
  | zero => simp [leBytes, leVal, Nat.mod_one]
  | succ w ih =>
    rw [leBytes, leVal_cons, ih, pow_succ', Nat.mod_mul]
    rfl

theorem leVal_leBytes_of_lt {w n : ℕ} (h : n < 256 ^ w) : leVal (leBytes w n) = n := by
  rw [leVal_leBytes, Nat.mod_eq_of_lt h]

end PnmCompaction.Lib.LittleEndian
