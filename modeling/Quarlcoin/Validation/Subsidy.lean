import Mathlib.Algebra.Order.BigOperators.Group.Finset
import Mathlib.Data.Fintype.BigOperators
import Quarlcoin.Validation.Connect
/-!
# The subsidy

What `GetBlockSubsidy` pays at a height: the initial subsidy, halved once for
every full interval. `issued` is what all blocks up to a height may create.
-/

namespace Quarlcoin

open Arith Finset

variable (params : Consensus.Params) (n : ℕ)

/-- What the blocks up to height `n` may create. -/
def issued : ℤ :=
  ∑ h ∈ range (n + 1), (getBlockSubsidy h params).toInt

theorem toInt_shiftRight_amount (a b : CAmount) :
    (a >>> b).toInt = a.toInt >>> (b.toBitVec.smod 64).toNat := by
  rw [← Int64.toInt_toBitVec, Int64.toBitVec_shiftRight, BitVec.toInt_sshiftRight']
  rfl

/-- **A subsidy is an amount in range**, at most the initial one. -/
theorem getBlockSubsidy_bounds (nHeight : ℕ) (params : Consensus.Params) :
    0 ≤ (getBlockSubsidy nHeight params).toInt ∧
      (getBlockSubsidy nHeight params).toInt ≤ 5000000000 := by
  have hinit : (50 * coin).toInt = 5000000000 := rfl
  simp only [getBlockSubsidy]
  split
  · decide
  · rw [toInt_shiftRight_amount, Int.shiftRight_eq_div_pow]
    exact ⟨Int.ediv_nonneg (by omega) (Int.natCast_nonneg _), Int.ediv_le_self _ (by omega)⟩

theorem moneyRange_getBlockSubsidy (nHeight : ℕ) (params : Consensus.Params) :
    moneyRange (getBlockSubsidy nHeight params) = true := by
  have hbounds := getBlockSubsidy_bounds nHeight params
  exact moneyRange_iff.2 ⟨hbounds.1, by omega⟩

theorem issued_succ :
    issued params (n + 1) = issued params n + (getBlockSubsidy (n + 1) params).toInt :=
  sum_range_succ _ _

theorem issued_nonneg : 0 ≤ issued params n :=
  sum_nonneg fun h _ => (getBlockSubsidy_bounds h params).1

end Quarlcoin
