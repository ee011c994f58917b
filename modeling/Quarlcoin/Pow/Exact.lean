import Quarlcoin.Arith.Compact
import Quarlcoin.Common.Machine
import Quarlcoin.Pow.Ideal
/-!
# Proof of work — the machine target is the ideal one

On main and testnet no word of `ASERTTarget` wraps, for any parent height and time a header
can have, and the result is `idealTarget`. On regtest the product of the anchor with the
factor always leaves 256 bits (`Regtest.lean`).
-/

namespace Quarlcoin

open Arith Machine UInt64 BaseUint Nat

namespace Pow

/-! ## The steps up to the factor -/

theorem toInt_getBlockTime (t : UInt32) : (getBlockTime t).toInt = t.toNat := by
  have ht := t.toNat_lt
  rw [getBlockTime, ← Int64.toInt_toBitVec, toBitVec_toInt64, BitVec.toInt_eq_toNat_of_lt]
  · rw [toNat_toBitVec, UInt32.toNat_toUInt64]
  · rw [toNat_toBitVec, UInt32.toNat_toUInt64]
    omega

theorem toInt_asertShifts (e : Int64) : (asertShifts e).toInt = e.toInt / 65536 :=
  toInt_shiftRight_sixteen e

/-- The remainder is taken toward minus infinity, as the shift is. -/
theorem toNat_asertFrac (e : Int64) : (asertFrac e).toNat = idealFrac e.toInt := by
  have he := e.toInt_lt
  have he' := e.le_toInt
  have hone : (65536 : Int64).toInt = 65536 := rfl
  have hmul : (asertShifts e * 65536).toInt = e.toInt / 65536 * 65536 := by
    rw [toInt_mul_of_bounds] <;> rw [toInt_asertShifts, hone] <;> omega
  have hsub : (e - asertShifts e * 65536).toInt = e.toInt % 65536 := by
    rw [toInt_sub_of_bounds] <;> rw [hmul] <;> omega
  rw [asertFrac, Int64.toNat_toUInt64_of_le, ← Int64.toNat_toInt, hsub, idealFrac]
  rw [Int64.le_iff_toInt_le, Int64.toInt_zero]
  omega

/-- **The cubic does not wrap.** -/
theorem toNat_asertCubic {frac : UInt64} (h : frac.toNat < 65536) :
    (asertCubic frac).toNat = idealCubic frac.toNat := by
  -- the cubic comes close to 64 bits, and stays below
  have hlt : idealCubic frac.toNat < 2 ^ 64 :=
    lt_of_le_of_lt (idealCubic_mono (Nat.le_pred_of_lt h)) (by decide)
  have hhalf : ((1 : UInt64) <<< (47 : UInt64)).toNat = 2 ^ 47 := rfl
  rw [asertCubic]
  simp only [UInt64.toNat_add, UInt64.toNat_mul, hhalf, mod_add_mod, add_mod_mod, mod_mul_mod]
  rw [mod_eq_of_lt]
  · simp only [idealCubic, reduceToNat]
    ring
  · refine lt_of_eq_of_lt ?_ hlt
    simp only [idealCubic, reduceToNat]
    ring

theorem toNat_asertFactor {frac : UInt64} (h : frac.toNat < 65536) :
    (asertFactor frac).toUInt32.toNat = idealFactor frac.toNat := by
  have hlt := idealFactor_lt h
  have hshift : (asertCubic frac >>> 48).toNat = idealCubic frac.toNat / 2 ^ 48 := by
    rw [UInt64.toNat_shiftRight, shiftRight_eq_div_pow, toNat_asertCubic h]
    rfl
  have hadd : (asertFactor frac).toNat = idealFactor frac.toNat := by
    rw [asertFactor, UInt64.toNat_add, hshift, mod_eq_of_lt]
    · rfl
    · exact lt_of_eq_of_lt rfl (hlt.trans (by norm_num))
  rw [toNat_toUInt32, hadd, mod_eq_of_lt (hlt.trans (by norm_num))]

variable (params : Consensus.Params)

def anchorTarget : ℕ :=
  (setCompact params.asertAnchor.nBits).value.toNat

theorem toNat_asertProduct (e : Int64) : (asertProduct params e).toNat =
      anchorTarget params * idealFactor (idealFrac e.toInt) % 2 ^ 256 := by
  have hfrac := toNat_asertFrac e
  have hlt := idealFrac_lt e.toInt
  rw [asertProduct, toNat_mulUInt32, toNat_asertFactor (by rw [hfrac]; exact hlt), hfrac,
    mul_comm, anchorTarget]

/-! ## The shift and the clamp -/

/-- The end of the computation brings the target between one and the limit. -/
theorem toNat_asertClamp {powLimit : ArithUint256} (hlimit : 1 ≤ powLimit.toNat)
    (next : ArithUint256) :
    (asertClamp powLimit next).toNat = max 1 (min powLimit.toNat (next.toNat / 2 ^ 16)) := by
  have hshr := next.toNat_shr 16
  unfold asertClamp
  dsimp only
  split
  · rename_i h
    have hzero : (next.shr 16).toNat = 0 := equalTo_iff.1 h
    rw [← hshr, hzero]
    simp
  rename_i h
  have hne : (next.shr 16).toNat ≠ 0 := fun h0 => h (equalTo_iff.2 h0)
  split
  · rename_i hlt
    have := lt_iff.1 hlt
    omega
  · rename_i hge
    have := lt_iff.not.1 hge
    omega

/-- **What the shift does**: it divides or multiplies, and answers with the limit when the product
leaves 256 bits. -/
theorem toNat_asertShift {powLimit next : ArithUint256} (hlimit : 1 ≤ powLimit.toNat)
    (hnext : 0 < next.toNat) (shifts : Int64) (hmin : -2 ^ 63 < shifts.toInt) :
    (asertShift powLimit next shifts).toNat = if shifts.toInt ≤ 0 then
        max 1 (min powLimit.toNat (next.toNat / 2 ^ ((-shifts.toInt).toNat + 16)))
      else if next.toNat * 2 ^ shifts.toInt.toNat < 2 ^ 256 then
        max 1 (min powLimit.toNat (next.toNat * 2 ^ shifts.toInt.toNat / 2 ^ 16))
      else powLimit.toNat := by
  have hlt := next.toNat_lt
  have hneg := toInt_neg_of_bounds hmin
  have hbound : (256 : Int64).toInt = 256 := rfl
  set k := shifts.toInt.toNat with hk
  unfold asertShift
  simp only [Int64.le_iff_toInt_le, hneg, hbound, Int64.toInt_zero, ← Int64.toNat_toInt]
  split
  · split
    · -- every bit of the product is shifted out
      have hzero : next.toNat / 2 ^ ((-shifts.toInt).toNat + 16) = 0 :=
        div_eq_of_lt (hlt.trans_le (Nat.pow_le_pow_right (by omega) (by omega)))
      rw [hzero]
      simp
    · rw [toNat_asertClamp hlimit, toNat_shr, Nat.div_div_eq_div_mul, ← pow_add]
  · split
    · have hover : ¬ next.toNat * 2 ^ k < 2 ^ 256 := by
        have := Nat.pow_le_pow_right (n := 2) (by omega) (show 256 ≤ k by omega)
        have := mul_le_mul hnext this
        omega
      rw [if_neg hover]
    · have hshl := next.toNat_shl k
      split
      · rename_i hne
        have hover : ¬ next.toNat * 2 ^ k < 2 ^ 256 := by
          intro h
          refine hne (toNat_inj.1 ?_)
          rw [toNat_shr, hshl, Nat.mod_eq_of_lt h, Nat.mul_div_cancel _ (by positivity)]
        rw [if_neg hover]
      · rename_i heq
        have hfit : next.toNat * 2 ^ k < 2 ^ 256 := by
          have hback := toNat_inj.2 (not_ne_iff.1 heq)
          rw [toNat_shr] at hback
          calc next.toNat * 2 ^ k
              ≤ (next.shl k).toNat := by rw [← hback]; exact div_mul_le_self _ _
            _ < 2 ^ 256 := toNat_lt _
        rw [if_pos hfit, toNat_asertClamp hlimit, hshl, mod_eq_of_lt hfit]

/-! ## The networks -/

/-- A network's parameters with retargeting switched on. -/
def retargeting (net : ChainType) : Consensus.Params :=
  { (createChainParams net).consensus with fPowNoRetargeting := false }

def targetLimit : ℕ := (uintToArith256 params.powLimit).toNat

/-- **Nothing wraps unnoticed**: every intermediate is the one of unbounded integers, but for bits
a left shift loses and the shift back shows. -/
structure NoSilentWrap (prevHeight prevTime : Int64) : Prop where
  blocks : (asertBlocks params prevHeight).toInt =
    prevHeight.toInt - params.asertAnchor.nHeight.toInt
  elapsed : (asertElapsed params prevTime).toInt = prevTime.toInt - params.asertAnchor.nTime.toNat
  due : (params.nPowTargetSpacing * asertBlocks params prevHeight).toInt =
    params.nPowTargetSpacing.toInt * (asertBlocks params prevHeight).toInt
  drift : (asertDrift params prevHeight prevTime).toInt =
    idealDrift params prevHeight.toInt prevTime.toInt
  scaled : (asertDrift params prevHeight prevTime * 65536).toInt =
    idealDrift params prevHeight.toInt prevTime.toInt * 65536
  cubic : (asertCubic (asertFrac (asertExponent params prevHeight prevTime))).toNat =
    idealCubic (idealFrac (idealExponent params prevHeight.toInt prevTime.toInt))
  product : (asertProduct params (asertExponent params prevHeight prevTime)).toNat =
    anchorTarget params *
      idealFactor (idealFrac (idealExponent params prevHeight.toInt prevTime.toInt))
  shift : ∀ s : ℕ, s = (asertShifts (asertExponent params prevHeight prevTime)).toInt →
    ∀ next, next = asertProduct params (asertExponent params prevHeight prevTime) →
      (next.shl s).toNat = next.toNat * 2 ^ s ∨ (next.shl s).shr s ≠ next

theorem targetLimit_eq : targetLimit params = params.powLimit.toNat :=
  toNat_uintToArith256 _

/-- The target of the code at an exponent: everything that follows the
product is exact. -/
theorem toNat_asertTargetOf {params : Consensus.Params} (hlimit : 1 ≤ targetLimit params)
    (e : Int64) (hnext : 0 < (asertProduct params e).toNat) : (asertTargetOf params e).toNat =
      if e.toInt / 65536 ≤ 0 then max 1 (min (targetLimit params)
          ((asertProduct params e).toNat / 2 ^ ((-(e.toInt / 65536)).toNat + 16)))
      else if (asertProduct params e).toNat * 2 ^ (e.toInt / 65536).toNat < 2 ^ 256 then
        max 1 (min (targetLimit params)
          ((asertProduct params e).toNat * 2 ^ (e.toInt / 65536).toNat / 2 ^ 16))
      else targetLimit params := by
  have hmin := e.le_toInt
  have hshifts := toInt_asertShifts e
  rw [asertTargetOf, toNat_asertShift hlimit hnext _ (by omega), hshifts]
  rfl

theorem shl_noticed (next : ArithUint256) (s : ℕ) :
    (next.shl s).toNat = next.toNat * 2 ^ s ∨ (next.shl s).shr s ≠ next := by
  rcases lt_or_ge (next.toNat * 2 ^ s) (2 ^ (32 * 8)) with h | h
  · exact .inl (by rw [toNat_shl, mod_eq_of_lt h])
  refine .inr fun heq => ?_
  have hback := toNat_inj.2 heq
  rw [toNat_shr] at hback
  have hle : next.toNat * 2 ^ s ≤ (next.shl s).toNat := by
    rw [← hback]
    exact div_mul_le_self _ _
  have := toNat_lt (next.shl s)
  omega

section

variable (net : ChainType)

theorem spacing_eq : (retargeting net).nPowTargetSpacing.toInt = 150 := by cases net <;> rfl

theorem halfLife_eq : (retargeting net).nASERTHalfLife.toInt = 43200 := by cases net <;> rfl

theorem anchorHeight_eq : (retargeting net).asertAnchor.nHeight.toInt = 0 := by cases net <;> rfl

variable {h : Int64} (h0 : 0 ≤ h.toInt) (h1 : h.toInt < 2 ^ 31) (t : UInt32)
include h0 h1

theorem drift_exact {P : Consensus.Params} (hP : P = retargeting net) :
    (asertBlocks P h).toInt = h.toInt - P.asertAnchor.nHeight.toInt ∧
    (asertElapsed P (getBlockTime t)).toInt = (getBlockTime t).toInt - P.asertAnchor.nTime.toNat ∧
    (P.nPowTargetSpacing * asertBlocks P h).toInt =
      P.nPowTargetSpacing.toInt * (asertBlocks P h).toInt ∧
    (asertDrift P h (getBlockTime t)).toInt = idealDrift P h.toInt (getBlockTime t).toInt ∧
    (asertDrift P h (getBlockTime t) * 65536).toInt =
      idealDrift P h.toInt (getBlockTime t).toInt * 65536 := by
  have hspacing : P.nPowTargetSpacing.toInt = 150 := hP ▸ spacing_eq net
  have hheight : P.asertAnchor.nHeight.toInt = 0 := hP ▸ anchorHeight_eq net
  have ht := toInt_getBlockTime t
  have hanchor := toInt_getBlockTime P.asertAnchor.nTime
  have hlt := t.toNat_lt
  have hlt' := P.asertAnchor.nTime.toNat_lt
  have hblocks : (asertBlocks P h).toInt = h.toInt - P.asertAnchor.nHeight.toInt := by
    rw [asertBlocks, toInt_sub_of_bounds] <;> rw [Int32.toInt_toInt64] <;> omega
  have helapsed : (asertElapsed P (getBlockTime t)).toInt =
      (getBlockTime t).toInt - P.asertAnchor.nTime.toNat := by
    rw [asertElapsed, toInt_sub_of_bounds] <;> rw [hanchor] <;> omega
  have hdue : (P.nPowTargetSpacing * asertBlocks P h).toInt =
      P.nPowTargetSpacing.toInt * (asertBlocks P h).toInt := by
    rw [toInt_mul_of_bounds] <;> rw [hspacing, hblocks] <;> omega
  have hdrift : (asertDrift P h (getBlockTime t)).toInt =
      idealDrift P h.toInt (getBlockTime t).toInt := by
    rw [asertDrift, toInt_sub_of_bounds] <;> rw [helapsed, hdue, hblocks] <;>
      simp only [idealDrift, hspacing, hheight] <;> omega
  refine ⟨hblocks, helapsed, hdue, hdrift, ?_⟩
  have hone : (65536 : Int64).toInt = 65536 := rfl
  rw [toInt_mul_of_bounds] <;> rw [hdrift, hone] <;>
    simp only [idealDrift, hspacing] <;> omega

theorem toInt_asertExponent : (asertExponent (retargeting net) h (getBlockTime t)).toInt =
    idealExponent (retargeting net) h.toInt (getBlockTime t).toInt := by
  obtain ⟨-, -, -, -, hscaled⟩ := drift_exact net h0 h1 t rfl
  rw [asertExponent, toInt_div_of_pos (by rw [halfLife_eq net]; omega), hscaled, idealExponent]

end

/-! ## Main and testnet -/

section

variable {net : ChainType} (hnet : net ≠ .regtest)
include hnet

/-- On the public networks the anchor has the limit for its target. -/
theorem anchorTarget_public : anchorTarget (retargeting net) = 0xffff * 2 ^ 208 := by
  rw [anchorTarget, toNat_setCompact]
  cases net with
  | main => rfl
  | testnet => rfl
  | regtest => exact absurd rfl hnet

theorem targetLimit_public : targetLimit (retargeting net) = 0xffff * 2 ^ 208 := by
  cases net with
  | main => rfl
  | testnet => rfl
  | regtest => exact absurd rfl hnet

/-- There the product has room for the factor. -/
theorem toNat_asertProduct_public (e : Int64) : (asertProduct (retargeting net) e).toNat =
      anchorTarget (retargeting net) * idealFactor (idealFrac e.toInt) := by
  have hF := idealFactor_lt (idealFrac_lt e.toInt)
  rw [toNat_asertProduct, mod_eq_of_lt]
  rw [anchorTarget_public hnet]
  omega

/-- **On the public networks the target of every exponent is the ideal one.** -/
theorem asertTargetOf_eq_idealTarget (e : Int64) : (asertTargetOf (retargeting net) e).toNat =
      idealTarget (anchorTarget (retargeting net)) (targetLimit (retargeting net)) e.toInt := by
  have hlimit := targetLimit_public hnet
  have hproduct := toNat_asertProduct_public hnet e
  have hpos : 0 < anchorTarget (retargeting net) * idealFactor (idealFrac e.toInt) := by
    have hF := le_idealFactor (idealFrac e.toInt)
    rw [anchorTarget_public hnet]
    omega
  rw [toNat_asertTargetOf (by omega) e (by omega), hproduct, idealTarget]
  split
  · rename_i hs
    rw [floor_idealScaled_of_nonpos _ hs]
  rw [floor_idealScaled_of_nonneg _ (by omega)]
  split
  · rfl
  · -- what does not fit 256 bits is past the limit by far
    omega

variable {h : Int64} (h0 : 0 ≤ h.toInt) (h1 : h.toInt < 2 ^ 31) (t : UInt32)
include h0 h1

/-- **On the public networks nothing wraps.** -/
theorem noSilentWrap_of_ne_regtest : NoSilentWrap (retargeting net) h (getBlockTime t) := by
  obtain ⟨hblocks, helapsed, hdue, hdrift, hscaled⟩ := drift_exact net h0 h1 t rfl
  have he := toInt_asertExponent net h0 h1 t
  have hfrac := toNat_asertFrac (asertExponent (retargeting net) h (getBlockTime t))
  exact
    { blocks := hblocks
      elapsed := helapsed
      due := hdue
      drift := hdrift
      scaled := hscaled
      cubic := by rw [toNat_asertCubic (by rw [hfrac]; exact idealFrac_lt _), hfrac, he]
      product := by rw [toNat_asertProduct_public hnet, he]
      shift := fun s _ next _ => shl_noticed next s }

end

end Pow

end Quarlcoin
