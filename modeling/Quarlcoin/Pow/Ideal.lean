import Mathlib.Algebra.Order.Field.Power
import Mathlib.Algebra.Order.Floor.Semifield
import Mathlib.Data.Rat.Floor
import Mathlib.Tactic.Positivity
import Quarlcoin.Pow.Model
/-!
# Proof of work — the target on unbounded integers

The exponent is the schedule's drift in fixed point, and the target the anchor's times
`factor · 2 ^ s / 2 ^ 16`, rounded down once and brought between one and the limit. It is
monotone: the cubic stays below a doubling at the end of every piece and starts the next at
exactly a doubling.
-/

namespace Quarlcoin.Pow

variable (params : Consensus.Params) (prevHeight prevTime : ℤ)

/-- The seconds a chain is behind schedule. -/
def idealDrift : ℤ :=
  prevTime - params.asertAnchor.nTime.toNat -
    params.nPowTargetSpacing.toInt * (prevHeight - params.asertAnchor.nHeight.toInt)

/-- The drift in half-lives, with sixteen fractional bits, truncated toward
zero. -/
def idealExponent : ℤ :=
  (idealDrift params prevHeight prevTime * 65536).tdiv params.nASERTHalfLife.toInt

def idealCubic (f : ℕ) : ℕ :=
  195766423245049 * f + 971821376 * f ^ 2 + 5127 * f ^ 3 + 2 ^ 47

/-- `2 ^ (f / 2 ^ 16)` in fixed point. -/
def idealFactor (f : ℕ) : ℕ := 65536 + idealCubic f / 2 ^ 48

def idealFrac (e : ℤ) : ℕ := (e % 65536).toNat

/-- The anchor's target, scaled by the exponent and not rounded. -/
def idealScaled (anchor : ℕ) (e : ℤ) : ℚ :=
  anchor * idealFactor (idealFrac e) * 2 ^ (e / 65536) / 2 ^ 16

/-- **The target the formula asks for.** -/
def idealTarget (anchor limit : ℕ) (e : ℤ) : ℕ :=
  max 1 (min limit ⌊idealScaled anchor e⌋₊)

/-! ## The cubic -/

theorem idealFrac_lt (e : ℤ) : idealFrac e < 65536 := by
  unfold idealFrac
  omega

variable {f g : ℕ} {e e' : ℤ}

theorem idealCubic_mono (h : f ≤ g) : idealCubic f ≤ idealCubic g := by
  unfold idealCubic
  gcongr

theorem idealFactor_mono (h : f ≤ g) : idealFactor f ≤ idealFactor g :=
  Nat.add_le_add_left (Nat.div_le_div_right (idealCubic_mono h)) _

theorem le_idealFactor (f : ℕ) : 2 ^ 16 ≤ idealFactor f := Nat.le_add_right _ _

theorem idealFactor_lt (h : f < 65536) : idealFactor f < 2 ^ 17 :=
  lt_of_le_of_lt (idealFactor_mono (Nat.le_pred_of_lt h)) (by decide)

/-! ## Monotonicity -/

variable (anchor : ℕ)

/-- **A later exponent scales further.** Within a piece the cubic grows;
across pieces a doubling covers what the cubic can lose. -/
theorem idealScaled_mono (h : e ≤ e') : idealScaled anchor e ≤ idealScaled anchor e' := by
  have hfactor : (idealFactor (idealFrac e) : ℚ) * 2 ^ (e / 65536) ≤
      idealFactor (idealFrac e') * 2 ^ (e' / 65536) := by
    rcases Int.lt_or_eq_of_le (Int.ediv_le_ediv (by omega : (0 : ℤ) < 65536) h) with hlt | heq
    · have hF : (idealFactor (idealFrac e) : ℚ) ≤ 2 ^ 17 := by
        exact_mod_cast (idealFactor_lt (idealFrac_lt e)).le
      have hF' : (2 : ℚ) ^ 16 ≤ idealFactor (idealFrac e') := by exact_mod_cast le_idealFactor _
      calc (idealFactor (idealFrac e) : ℚ) * 2 ^ (e / 65536)
          ≤ 2 ^ 17 * 2 ^ (e / 65536) := by gcongr
        _ = 2 ^ 16 * 2 ^ (e / 65536 + 1) := by rw [zpow_add₀ (by norm_num)]; norm_num; ring
        _ ≤ idealFactor (idealFrac e') * 2 ^ (e' / 65536) := by
            gcongr
            · norm_num
            · omega
    · have hfrac : idealFrac e ≤ idealFrac e' := by
        unfold idealFrac
        omega
      rw [heq]
      gcongr
      exact idealFactor_mono hfrac
  unfold idealScaled
  rw [mul_assoc, mul_assoc]
  gcongr

/-- **The target is monotone in the exponent**, clamps included. -/
theorem idealTarget_mono (anchor limit : ℕ) (h : e ≤ e') :
    idealTarget anchor limit e ≤ idealTarget anchor limit e' := by
  unfold idealTarget
  have := Nat.floor_mono (idealScaled_mono anchor h)
  omega

/-! ## Rounding down, case by case -/

theorem floor_idealScaled_of_nonpos (h : e / 65536 ≤ 0) : ⌊idealScaled anchor e⌋₊ =
      anchor * idealFactor (idealFrac e) / 2 ^ ((-(e / 65536)).toNat + 16) := by
  obtain ⟨k, hk⟩ := Int.eq_ofNat_of_zero_le (Int.neg_nonneg_of_nonpos h)
  rw [← Nat.floor_div_eq_div (K := ℚ), idealScaled, hk, Int.toNat_natCast,
    show e / 65536 = -(k : ℤ) by omega, zpow_neg, zpow_natCast]
  push_cast
  rw [pow_add]
  field_simp

theorem floor_idealScaled_of_nonneg (h : 0 ≤ e / 65536) : ⌊idealScaled anchor e⌋₊ =
      anchor * idealFactor (idealFrac e) * 2 ^ (e / 65536).toNat / 2 ^ 16 := by
  obtain ⟨s, hs⟩ := Int.eq_ofNat_of_zero_le h
  rw [← Nat.floor_div_eq_div (K := ℚ), idealScaled, hs]
  push_cast
  rfl

/-! ## The exponent along the schedule -/

section

variable {params : Consensus.Params} (hlife : 0 < params.nASERTHalfLife.toInt)
include hlife

theorem idealExponent_anti_height (hspacing : 0 ≤ params.nPowTargetSpacing.toInt) {h h' : ℤ}
    (hh : h ≤ h') (t : ℤ) : idealExponent params h' t ≤ idealExponent params h t := by
  refine Int.tdiv_le_tdiv hlife ?_
  unfold idealDrift
  have := mul_le_mul_of_nonneg_left
    (sub_le_sub_right hh params.asertAnchor.nHeight.toInt) hspacing
  linarith

end

end Quarlcoin.Pow
