import Quarlcoin.Pow.Exact
/-!
# Proof of work — later is never harder

On the public networks the bits the next block must carry are monotone in the parent's time
and antitone in its height, compact rounding included.
-/

namespace Quarlcoin

open Arith Int64

namespace Pow

variable (params : Consensus.Params) (prevHeight prevTime : Int64)

/-- The target the next block's bits stand for. -/
def decodedTarget : ℕ :=
  (setCompact (calculateNextWorkRequired params prevHeight prevTime)).value.toNat

theorem decodedTarget_eq : decodedTarget params prevHeight prevTime =
      roundCompact (asertTarget params prevHeight prevTime).toNat :=
  toNat_setCompact_getCompact _

/-- **The target of a later exponent is no harder**, within a piece of the cubic and across
pieces. -/
theorem asertTargetOf_mono {net : ChainType} (hnet : net ≠ .regtest) {e e' : Int64} (h : e ≤ e') :
    (asertTargetOf (retargeting net) e).toNat ≤ (asertTargetOf (retargeting net) e').toNat := by
  rw [asertTargetOf_eq_idealTarget hnet, asertTargetOf_eq_idealTarget hnet]
  exact idealTarget_mono _ _ (le_iff_toInt_le.1 h)

section

variable {net : ChainType} (hnet : net ≠ .regtest) {h h' : Int64} (h0 : 0 ≤ h.toInt)
include hnet h0

theorem decodedTarget_mono_time (h1 : h.toInt < 2 ^ 31) {t t' : UInt32} (ht : t ≤ t') :
    decodedTarget (retargeting net) h (getBlockTime t) ≤
      decodedTarget (retargeting net) h (getBlockTime t') := by
  rw [decodedTarget_eq, decodedTarget_eq]
  refine roundCompact_mono (asertTargetOf_mono hnet ?_)
  rw [le_iff_toInt_le, toInt_asertExponent net h0 h1, toInt_asertExponent net h0 h1]
  refine Int.tdiv_le_tdiv (by rw [halfLife_eq]; omega) ?_
  have hle := UInt32.le_iff_toNat_le.1 ht
  rw [idealDrift, idealDrift, toInt_getBlockTime, toInt_getBlockTime]
  omega

theorem decodedTarget_anti_height (h1 : h'.toInt < 2 ^ 31) (hh : h ≤ h') (t : UInt32) :
    decodedTarget (retargeting net) h' (getBlockTime t) ≤
      decodedTarget (retargeting net) h (getBlockTime t) := by
  have hle := le_iff_toInt_le.1 hh
  rw [decodedTarget_eq, decodedTarget_eq]
  refine roundCompact_mono (asertTargetOf_mono hnet ?_)
  rw [le_iff_toInt_le, toInt_asertExponent net (h0.trans hle) h1,
    toInt_asertExponent net h0 (hle.trans_lt h1)]
  exact idealExponent_anti_height (by rw [halfLife_eq]; omega) (by rw [spacing_eq]; omega) hle _

end

/-- **`CalculateNextWorkRequired` is monotone** on main and testnet: a later parent never makes
the next block harder, a higher one never easier. -/
theorem calculateNextWorkRequired_monotone (net : ChainType) (hnet : net ≠ .regtest) :
    (∀ h : Int64, 0 ≤ h.toInt → h.toInt < 2 ^ 31 → ∀ t t' : UInt32, t ≤ t' →
      decodedTarget (createChainParams net).consensus h (getBlockTime t) ≤
        decodedTarget (createChainParams net).consensus h (getBlockTime t')) ∧
    (∀ h h' : Int64, 0 ≤ h.toInt → h'.toInt < 2 ^ 31 → h ≤ h' → ∀ t : UInt32,
      decodedTarget (createChainParams net).consensus h' (getBlockTime t) ≤
        decodedTarget (createChainParams net).consensus h (getBlockTime t)) ∧
    (∀ e e' : Int64, e'.toInt = e.toInt + 1 →
      (asertTargetOf (createChainParams net).consensus e).toNat ≤
        (asertTargetOf (createChainParams net).consensus e').toNat) := by
  refine ⟨fun h h0 h1 t t' ht => ?_, fun h h' h0 h1 hh t => ?_, fun e e' he => ?_⟩
  · exact decodedTarget_mono_time hnet h0 h1 ht
  · exact decodedTarget_anti_height hnet h0 h1 hh t
  · exact asertTargetOf_mono hnet (le_iff_toInt_le.2 (by omega))

/-- Two parents of the main network one second apart. -/
theorem nextWork_later_second : decodedTarget mainParams.consensus 0 (getBlockTime 1785762002) ≤
      decodedTarget mainParams.consensus 0 (getBlockTime 1785762003) :=
  (calculateNextWorkRequired_monotone .main (by decide)).1 0 (by decide) (by decide) _ _ (by decide)

end Pow

end Quarlcoin
