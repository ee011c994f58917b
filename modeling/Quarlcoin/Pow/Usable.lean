import Quarlcoin.Arith.Representable
import Quarlcoin.Chain.Work
import Quarlcoin.Pow.Exact
/-!
# The difficulty rule — its answer is a target

Whatever the parent, also where the arithmetic wraps, the clamps leave a number between one
and the limit, and so does the compact format: a target that `DeriveTarget` accepts and that
has work.
-/

namespace Quarlcoin.Pow

open Arith Nat

/-! ## The clamps -/

theorem asertClamp_mem {powLimit : ArithUint256} (hlimit : 1 ≤ powLimit.toNat)
    (next : ArithUint256) :
    1 ≤ (asertClamp powLimit next).toNat ∧ (asertClamp powLimit next).toNat ≤ powLimit.toNat := by
  rw [toNat_asertClamp hlimit]
  omega

/-- **The target is between one and the limit**, at every height and time. -/
theorem asertTarget_mem {params : Consensus.Params} (hlimit : 1 ≤ targetLimit params)
    (prevHeight prevTime : Int64) : 1 ≤ (asertTarget params prevHeight prevTime).toNat ∧
      (asertTarget params prevHeight prevTime).toNat ≤ targetLimit params := by
  unfold asertTarget asertTargetOf asertShift targetLimit at *
  split
  · split
    · exact ⟨le_rfl, hlimit⟩
    · exact asertClamp_mem hlimit _
  split
  · exact ⟨hlimit, le_rfl⟩
  · dsimp only
    split
    · exact ⟨hlimit, le_rfl⟩
    · exact asertClamp_mem hlimit _

/-! ## The compact form -/

theorem one_le_roundCompact {v : ℕ} (h : 1 ≤ v) : 1 ≤ roundCompact v := by
  have hsize : 0 < size v := size_pos.2 h
  have hlead : 2 ^ (size v - 1) ≤ v := lt_size.1 (by omega)
  have hdrop : compactDrop v ≤ size v - 1 := by
    unfold compactDrop compactExponent
    split <;> omega
  exact Nat.one_le_two_pow.trans (two_pow_le_roundCompact hdrop hlead)

theorem deriveTarget_getCompact {a : ArithUint256} {powLimit : Uint256} (h : 1 ≤ a.toNat)
    (hle : a.toNat ≤ (uintToArith256 powLimit).toNat) :
    ∃ target, deriveTarget (getCompact a false) powLimit = some target ∧
      target.toNat = roundCompact a.toNat := by
  have hback := toNat_setCompact_getCompact a
  have hpos := one_le_roundCompact h
  have hzero : ¬(setCompact (getCompact a false)).value.equalTo 0 = true := by
    intro h0
    have hnat : (setCompact (getCompact a false)).value.toNat = 0 := BaseUint.equalTo_iff.1 h0
    omega
  have hlt : ¬(uintToArith256 powLimit).lt (setCompact (getCompact a false)).value = true := by
    intro h0
    have hnat := BaseUint.lt_iff.1 h0
    have := roundCompact_le a.toNat
    omega
  refine ⟨(setCompact (getCompact a false)).value, ?_, hback⟩
  simp [deriveTarget, getCompact_flags a, hzero, hlt]

theorem one_le_getBitsProof {a : ArithUint256} (h : 1 ≤ a.toNat) :
    1 ≤ (getBitsProof (getCompact a false)).toNat := by
  have hback := toNat_setCompact_getCompact a
  have hpos := one_le_roundCompact h
  have hsucc := setCompact_value_succ_lt (getCompact a false)
  rw [toNat_getBitsProof, (getCompact_flags a).1, (getCompact_flags a).2, Bool.or_self,
    Bool.false_or, if_neg (by rw [decide_eq_true_iff]; omega)]
  exact (le_div_iff_mul_le (by omega)).2 (by omega)

variable (net : ChainType)

theorem one_le_targetLimit : 1 ≤ targetLimit (createChainParams net).consensus := by
  cases net <;> decide

/-- **The answer is always a target**: `DeriveTarget` accepts it, it is between one and the limit,
and it has work. -/
theorem calculateNextWorkRequired_usable (prevHeight prevTime : Int64) : ∃ target,
      deriveTarget (calculateNextWorkRequired (createChainParams net).consensus prevHeight prevTime)
          (createChainParams net).consensus.powLimit = some target ∧
        1 ≤ target.toNat ∧ target.toNat ≤ (createChainParams net).consensus.powLimit.toNat ∧
        1 ≤ (getBitsProof (calculateNextWorkRequired (createChainParams net).consensus prevHeight
          prevTime)).toNat := by
  obtain ⟨hone, hle⟩ := asertTarget_mem (one_le_targetLimit net) prevHeight prevTime
  obtain ⟨target, htarget, hval⟩ := deriveTarget_getCompact hone hle
  refine ⟨target, htarget, ?_, ?_, one_le_getBitsProof hone⟩
  · rw [hval]
    exact one_le_roundCompact hone
  · rw [hval, ← targetLimit_eq]
    exact (roundCompact_le _).trans hle

end Quarlcoin.Pow
