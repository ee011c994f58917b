import Quarlcoin.Pow.Exact
/-!
# Proof of work — retargeting on regtest

The regtest anchor is `0x7fffff · 2 ^ 232`, so its product with a factor never fits 256
bits. The target is then right only where both computations end in a clamp.
-/

namespace Quarlcoin

open Arith Machine Nat

namespace Pow

/-- The anchor and the limit of regtest. -/
def regTarget : ℕ := 0x7fffff * 2 ^ 232

theorem anchorTarget_regtest : anchorTarget (retargeting .regtest) = regTarget := by
  rw [anchorTarget, toNat_setCompact]
  rfl

theorem targetLimit_regtest : targetLimit (retargeting .regtest) = regTarget := by
  rw [targetLimit_eq]
  rfl

/-- **What is left of the product**: the negative of the factor, at the top
of the word. -/
theorem regTarget_mul_mod {F : ℕ} (hF : 2 ^ 16 ≤ F) (hF' : F < 2 ^ 17) :
    regTarget * F % 2 ^ 256 = 2 ^ 232 * (if F % 2 = 0 then 2 ^ 24 - F else 2 ^ 23 - F) := by
  rw [regTarget, mul_comm 0x7fffff, mul_assoc, show 2 ^ 256 = 2 ^ 232 * 2 ^ 24 by rfl,
    mul_mod_mul_left]
  congr 1
  split <;> omega

/-- The exponents at which the wrap does no harm: the target is one or the limit either way. -/
def WrapHarmless (e : ℤ) : Prop :=
  e ≤ -254 * 65536 ∨ 2 * 65536 ≤ e ∨ (65536 ≤ e ∧ e < 2 * 65536 ∧ idealFactor (idealFrac e) % 2 = 0)

theorem idealFactor_eq_iff {f : ℕ} : idealFactor f = 2 ^ 16 ↔ f = 0 := by
  constructor
  · intro h
    by_contra hf
    have h1 : idealFactor 1 ≤ idealFactor f := idealFactor_mono (by omega)
    have h2 : idealFactor 1 = 65537 := by decide
    omega
  · rintro rfl
    decide

/-- The product is at least one turn of the word past what is left of it. -/
theorem regTarget_mul_mod_add_le {F : ℕ} (hF : 2 ^ 16 ≤ F) :
    regTarget * F % 2 ^ 256 + 2 ^ 256 ≤ regTarget * F := by
  have hge : 2 ^ 256 ≤ regTarget * F := by
    unfold regTarget
    omega
  have hdiv : 1 ≤ regTarget * F / 2 ^ 256 := (one_le_div_iff (by positivity)).2 hge
  have hmod := mod_add_div (regTarget * F) (2 ^ 256)
  omega

/-- A quotient by fewer bits than the product has is seen to be too small. -/
theorem regtest_quotient_lt {F n : ℕ} (hF : 2 ^ 16 ≤ F) (hn : n ≤ 269) :
    regTarget * F % 2 ^ 256 / 2 ^ n < regTarget * F / 2 ^ n ∧ 2 ≤ regTarget * F / 2 ^ n := by
  have hlarge : 2 ≤ regTarget * F / 2 ^ n := by
    rw [le_div_iff_mul_le (by positivity)]
    calc 2 * 2 ^ n ≤ 2 * 2 ^ 269 := Nat.mul_le_mul_left _ (Nat.pow_le_pow_right (by omega) hn)
      _ ≤ regTarget * F := by unfold regTarget; omega
  refine ⟨?_, hlarge⟩
  rcases lt_or_ge 256 n with h | h
  · have hzero : regTarget * F % 2 ^ 256 / 2 ^ n = 0 := div_eq_of_lt
      ((mod_lt _ (by positivity)).trans_le (Nat.pow_le_pow_right (by omega) h.le))
    omega
  calc regTarget * F % 2 ^ 256 / 2 ^ n
      < (regTarget * F % 2 ^ 256 + 2 ^ n) / 2 ^ n := by
        rw [add_div_right _ (by positivity)]
        exact lt_succ_self _
    _ ≤ regTarget * F / 2 ^ n := by
        refine Nat.div_le_div_right ((Nat.add_le_add_left ?_ _).trans (regTarget_mul_mod_add_le hF))
        exact Nat.pow_le_pow_right (by omega) h

/-- Below the anchor the two quotients agree only if both are at most one. -/
theorem regtest_quotient_eq_iff {F n : ℕ} (hF : 2 ^ 16 ≤ F) (hF' : F < 2 ^ 17) (hn : 17 ≤ n) :
    max 1 (min regTarget (regTarget * F % 2 ^ 256 / 2 ^ n)) =
        max 1 (min regTarget (regTarget * F / 2 ^ n)) ↔ 271 ≤ n ∨ (n = 270 ∧ F = 2 ^ 16) := by
  -- a factor below a doubling keeps the quotient within the limit
  have hlimit : regTarget * F / 2 ^ n ≤ regTarget := by
    refine Nat.div_le_of_le_mul ?_
    rw [Nat.mul_comm]
    exact mul_le_mul_right _ (hF'.le.trans (Nat.pow_le_pow_right (by omega) hn))
  have hle : regTarget * F % 2 ^ 256 / 2 ^ n ≤ regTarget * F / 2 ^ n :=
    Nat.div_le_div_right (mod_le _ _)
  rcases lt_trichotomy n 270 with h | h | h
  · obtain ⟨hlt, hlarge⟩ := regtest_quotient_lt hF (show n ≤ 269 by omega)
    omega
  · have hzero : regTarget * F % 2 ^ 256 / 2 ^ n = 0 := div_eq_of_lt
      ((mod_lt _ (by positivity)).trans_le (Nat.pow_le_pow_right (by omega) (by omega)))
    rw [hzero]
    subst h
    unfold regTarget at hlimit ⊢
    omega
  · have hsmall : regTarget * F / 2 ^ n < 2 := by
      rw [div_lt_iff_lt_mul (by positivity)]
      calc regTarget * F < 2 * 2 ^ 271 := by unfold regTarget; omega
        _ ≤ 2 * 2 ^ n := Nat.mul_le_mul_left _ (Nat.pow_le_pow_right (by omega) h)
    omega

/-- Above the anchor the target is right just when the shift is seen to
lose bits. -/
theorem regtest_shift_eq_iff {F s : ℕ} (hF : 2 ^ 16 ≤ F) (hF' : F < 2 ^ 17) :
    (if regTarget * F % 2 ^ 256 * 2 ^ s < 2 ^ 256 then
        max 1 (min regTarget (regTarget * F % 2 ^ 256 * 2 ^ s / 2 ^ 16)) else regTarget) =
        max 1 (min regTarget (regTarget * F * 2 ^ s / 2 ^ 16)) ↔ 2 ≤ s ∨ (s = 1 ∧ F % 2 = 0) := by
  -- the ideal target is the limit
  have hideal : regTarget ≤ regTarget * F * 2 ^ s / 2 ^ 16 := by
    rw [le_div_iff_mul_le (by positivity), mul_assoc]
    exact Nat.mul_le_mul_left _ (hF.trans (Nat.le_mul_of_pos_right _ (by positivity)))
  have hpos : 2 ^ 241 ≤ regTarget := by decide
  have hright : max 1 (min regTarget (regTarget * F * 2 ^ s / 2 ^ 16)) = regTarget := by omega
  have hiff : 2 ^ 256 ≤ regTarget * F % 2 ^ 256 * 2 ^ s ↔ 2 ≤ s ∨ (s = 1 ∧ F % 2 = 0) := by
    rw [regTarget_mul_mod hF hF']
    match s with
    | 0 => split <;> omega
    | 1 => split <;> omega
    | s + 2 =>
      have h4 : 2 ^ (s + 2) = 4 * 2 ^ s := by rw [pow_add]; ring
      have h1 : 1 ≤ 2 ^ s := Nat.one_le_two_pow
      have htop : 2 ^ 254 ≤ 2 ^ 232 * (if F % 2 = 0 then 2 ^ 24 - F else 2 ^ 23 - F) := by
        split <;> omega
      have hmul := mul_le_mul htop (show 4 ≤ 2 ^ (s + 2) by omega)
      simp only [show 2 ≤ s + 2 by omega, true_or, iff_true]
      omega
  rw [hright, ← hiff]
  split
  · rename_i hlt
    omega
  · rename_i hge
    omega

/-- **Where the regtest target comes out right**, by exponent. -/
theorem regtest_targetOf_eq_iff (e : Int64) : (asertTargetOf (retargeting .regtest) e).toNat =
        idealTarget (anchorTarget (retargeting .regtest)) (targetLimit (retargeting .regtest))
          e.toInt ↔ WrapHarmless e.toInt := by
  have hlimit : 1 ≤ targetLimit (retargeting .regtest) := by
    rw [targetLimit_regtest]
    decide
  have hF := le_idealFactor (idealFrac e.toInt)
  have hF' := idealFactor_lt (idealFrac_lt e.toInt)
  have hproduct := toNat_asertProduct (retargeting .regtest) e
  rw [anchorTarget_regtest] at hproduct
  have hnext : 0 < (asertProduct (retargeting .regtest) e).toNat := by
    rw [hproduct, regTarget_mul_mod hF hF']
    split <;> omega
  have hfrac : idealFactor (idealFrac e.toInt) = 2 ^ 16 ↔ e.toInt % 65536 = 0 := by
    rw [idealFactor_eq_iff, idealFrac]
    omega
  rw [toNat_asertTargetOf hlimit e hnext, hproduct, anchorTarget_regtest, targetLimit_regtest]
  unfold idealTarget WrapHarmless
  rcases Int.lt_trichotomy (e.toInt / 65536) 0 with hs | hs | hs
  · rw [if_pos hs.le, floor_idealScaled_of_nonpos _ hs.le,
      regtest_quotient_eq_iff hF hF' (by omega), hfrac]
    omega
  · -- on schedule the code divides what is left of the product
    have hzero := regtest_shift_eq_iff (s := 0) hF hF'
    rw [pow_zero, mul_one, if_pos (mod_lt _ (by positivity))] at hzero
    rw [if_pos hs.le, floor_idealScaled_of_nonneg _ hs.ge, hs, Int.neg_zero, Int.toNat_zero,
      zero_add, pow_zero, hzero]
    omega
  · rw [if_neg (by omega), floor_idealScaled_of_nonneg _ hs.le, regtest_shift_eq_iff hF hF']
    omega

section

variable {h : Int64} (h0 : 0 ≤ h.toInt) (h1 : h.toInt < 2 ^ 31) (t : UInt32)
include h0 h1

omit h0 h1 in
/-- On regtest the product never survives. -/
theorem not_noSilentWrap_regtest : ¬ NoSilentWrap (retargeting .regtest) h (getBlockTime t) := by
  intro hwrap
  have hproduct := hwrap.product
  have hlt := BaseUint.toNat_lt (asertProduct (retargeting .regtest)
    (asertExponent (retargeting .regtest) h (getBlockTime t)))
  have hF := le_idealFactor
    (idealFrac (idealExponent (retargeting .regtest) h.toInt (getBlockTime t).toInt))
  rw [hproduct, anchorTarget_regtest, regTarget] at hlt
  omega

/-- **Where `ASERTTarget` is the formula**: on every network but regtest, whatever the parent; on
regtest just where the wrap is harmless. -/
theorem asertTarget_exact_iff (net : ChainType) :
    ((asertTarget (retargeting net) h (getBlockTime t)).toNat =
          idealTarget (anchorTarget (retargeting net)) (targetLimit (retargeting net))
            (idealExponent (retargeting net) h.toInt t.toNat) ∧
        NoSilentWrap (retargeting net) h (getBlockTime t) ↔ net ≠ .regtest) ∧
      ((asertTarget (retargeting net) h (getBlockTime t)).toNat =
          idealTarget (anchorTarget (retargeting net)) (targetLimit (retargeting net))
            (idealExponent (retargeting net) h.toInt t.toNat) ↔
        net ≠ .regtest ∨ WrapHarmless (idealExponent (retargeting net) h.toInt t.toNat)) := by
  rw [← toInt_getBlockTime t]
  by_cases hnet : net = .regtest
  · subst hnet
    refine ⟨⟨fun hexact => absurd hexact.2 (not_noSilentWrap_regtest t), fun h => absurd rfl h⟩, ?_⟩
    rw [asertTarget, ← toInt_asertExponent .regtest h0 h1 t, regtest_targetOf_eq_iff]
    simp
  · have hexact := toInt_asertExponent net h0 h1 t ▸ asertTargetOf_eq_idealTarget hnet _
    have hwrap := noSilentWrap_of_ne_regtest hnet h0 h1 t
    exact ⟨⟨fun _ => hnet, fun _ => ⟨hexact, hwrap⟩⟩, ⟨fun _ => .inl hnet, fun _ => hexact⟩⟩

end

/-- At the anchor itself, on schedule, the formula asks for the anchor's
target and the code answers with one over `2 ^ 15` times harder. -/
theorem regtest_anchor_target_wrapped :
    (asertTarget (retargeting .regtest) 0 (getBlockTime 1785758400)).toNat = 0xff * 2 ^ 232 ∧
      idealTarget (anchorTarget (retargeting .regtest)) (targetLimit (retargeting .regtest))
        (idealExponent (retargeting .regtest) 0 1785758400) = 0x7fffff * 2 ^ 232 := by
  refine ⟨by decide +kernel, ?_⟩
  rw [anchorTarget_regtest, targetLimit_regtest, show idealExponent _ _ _ = 0 by rfl, idealTarget,
    floor_idealScaled_of_nonneg _ (by decide)]
  decide

/-- The parent at the anchor of the main network. -/
theorem asertTarget_exact_at_main_anchor :
    ((asertTarget (retargeting .main) 0 (getBlockTime 1785762002)).toNat =
          idealTarget (anchorTarget (retargeting .main)) (targetLimit (retargeting .main))
            (idealExponent (retargeting .main) (0 : Int64).toInt (1785762002 : UInt32).toNat)) ∧
      NoSilentWrap (retargeting .main) 0 (getBlockTime 1785762002) :=
  (asertTarget_exact_iff (h := 0) (by decide) (by decide) 1785762002 .main).1.2 (by decide)

end Pow

end Quarlcoin
