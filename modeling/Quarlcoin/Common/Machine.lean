import Mathlib.Tactic.Ring
/-!
# Signed 64-bit words

When an operation on `Int64` agrees with the one on the integers: sum,
difference and product while they stay in range, the arithmetic right shift
always.
-/

namespace Quarlcoin.Machine

open Int Int64

variable {a b : Int64}

theorem toInt_sub_of_bounds (h : -2 ^ 63 ≤ a.toInt - b.toInt) (h' : a.toInt - b.toInt < 2 ^ 63) :
    (a - b).toInt = a.toInt - b.toInt := by
  rw [toInt_sub, bmod_eq_of_le (by omega) (by omega)]

theorem toInt_add_of_bounds (h : -2 ^ 63 ≤ a.toInt + b.toInt) (h' : a.toInt + b.toInt < 2 ^ 63) :
    (a + b).toInt = a.toInt + b.toInt := by
  rw [toInt_add, bmod_eq_of_le (by omega) (by omega)]

theorem toNat_toUInt64_of_nonneg (h : 0 ≤ a.toInt) : a.toUInt64.toNat = a.toInt.toNat := by
  have hcond : a.toInt = if 2 * a.toUInt64.toNat < 2 ^ 64 then (a.toUInt64.toNat : ℤ)
      else a.toUInt64.toNat - 2 ^ 64 := BitVec.toInt_eq_toNat_cond a.toBitVec
  have hlt := a.toUInt64.toNat_lt
  split at hcond <;> omega

theorem toInt_mul_of_bounds (h : -2 ^ 63 ≤ a.toInt * b.toInt) (h' : a.toInt * b.toInt < 2 ^ 63) :
    (a * b).toInt = a.toInt * b.toInt := by
  rw [toInt_mul, bmod_eq_of_le (by omega) (by omega)]

theorem toInt_neg_of_bounds (h : -2 ^ 63 < a.toInt) : (-a).toInt = -a.toInt := by
  have := a.toInt_lt
  rw [toInt_neg, bmod_eq_of_le (by omega) (by omega)]

/-- Truncating division by a positive word never overflows. -/
theorem toInt_div_of_pos (h : 0 < b.toInt) : (a / b).toInt = a.toInt.tdiv b.toInt := by
  refine toInt_div_of_ne_right a b ?_
  rintro rfl
  exact absurd h (by decide)

theorem toInt_shiftRight_sixteen (a : Int64) : (a >>> 16).toInt = a.toInt / 2 ^ 16 := by
  rw [← Int64.toInt_toBitVec, Int64.toBitVec_shiftRight, BitVec.sshiftRight', BitVec.toInt_sshiftRight,
    shiftRight_eq_div_pow]
  rfl

end Quarlcoin.Machine
