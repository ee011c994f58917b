import Quarlcoin.Arith.Compact
/-!
# Arithmetic — the numbers of the compact format

The numbers that a compact word stands for are those that writing leaves as they are, so
writing rounds down to the greatest of them.
-/

namespace Quarlcoin.Arith

open BaseUint UInt32

/-! ## The flags -/

variable (c : UInt32)

/-- The mantissa that `SetCompact` tests, after the shift of short numbers. -/
def compactTested : ℕ :=
  if c.toNat / 2 ^ 24 ≤ 3 then c.toNat % 2 ^ 23 / 2 ^ (8 * (3 - c.toNat / 2 ^ 24))
  else c.toNat % 2 ^ 23

theorem toNat_tested :
    (if (c >>> 24).toNat ≤ 3 then (c &&& 0x007fffff) >>> ofNat (8 * (3 - (c >>> 24).toNat))
      else c &&& 0x007fffff).toNat = compactTested c := by
  rw [compactTested, toNat_shiftRight_size]
  split
  · have hs : 8 * (3 - c.toNat / 2 ^ 24) < 32 := by omega
    rw [UInt32.toNat_shiftRight, toNat_ofNat_of_lt' (by simp only [size]; omega),
      toNat_and_mantissaMask, Nat.shiftRight_eq_div_pow, Nat.mod_eq_of_lt hs]
  · exact toNat_and_mantissaMask c

theorem fNegative_eq :
    (setCompact c).fNegative = (decide (compactTested c ≠ 0) && c.toNat.testBit 23) := by
  have hbit := and_one_shiftLeft_ne_zero c (show 23 < 32 by omega)
  rw [show (1 : UInt32) <<< UInt32.ofNat 23 = 0x00800000 from rfl] at hbit
  rw [← toNat_tested, Bool.eq_iff_iff]
  simp only [setCompact, Bool.and_eq_true, bne_iff_ne, decide_eq_true_iff, hbit, ne_eq,
    ← UInt32.toNat_inj, UInt32.toNat_zero]

theorem fOverflow_eq :
    (setCompact c).fOverflow = decide (compactTested c ≠ 0 ∧ (34 < c.toNat / 2 ^ 24 ∨
      (0xff < compactTested c ∧ 33 < c.toNat / 2 ^ 24) ∨
      (0xffff < compactTested c ∧ 32 < c.toNat / 2 ^ 24))) := by
  rw [← toNat_tested, Bool.eq_iff_iff]
  simp only [setCompact, Bool.and_eq_true, Bool.or_eq_true, bne_iff_ne, decide_eq_true_iff, ne_eq,
    ← UInt32.toNat_inj, toNat_shiftRight_size,
    or_assoc]
  rfl

theorem toNat_setCompact_of_fits {c : UInt32} (h : (setCompact c).fOverflow = false) :
    (setCompact c).value.toNat = compactTested c * 2 ^ (8 * (c.toNat / 2 ^ 24 - 3)) := by
  rw [fOverflow_eq, decide_eq_false_iff_not] at h
  have hword : c.toNat % 2 ^ 23 < 2 ^ 23 := Nat.mod_lt _ (by positivity)
  rw [toNat_setCompact]
  unfold compactTested at h ⊢
  split
  case isTrue hs => rw [show c.toNat / 2 ^ 24 - 3 = 0 by omega, pow_zero, Nat.mul_one]
  case isFalse hs =>
    rw [if_neg hs] at h
    refine Nat.mod_eq_of_lt ?_
    generalize c.toNat % 2 ^ 23 = m at h hword
    generalize c.toNat / 2 ^ 24 = n at h hs
    by_cases h0 : m = 0
    · rw [h0, Nat.zero_mul]
      positivity
    · -- the longer the number, the shorter the mantissa that the flag admits
      have hfit : ∃ k, m < 2 ^ k ∧ k + 8 * (n - 3) ≤ 256 := by
        rcases Nat.lt_or_ge 32 n with hn | hn
        · rcases Nat.lt_or_ge 33 n with hn' | hn'
          · exact ⟨8, by omega, by omega⟩
          · exact ⟨16, by omega, by omega⟩
        · exact ⟨23, hword, by omega⟩
      obtain ⟨k, hk, hle⟩ := hfit
      calc m * 2 ^ (8 * (n - 3)) < 2 ^ k * 2 ^ (8 * (n - 3)) :=
            Nat.mul_lt_mul_of_pos_right hk (by positivity)
        _ ≤ 2 ^ 256 := by rw [← pow_add]; exact Nat.pow_le_pow_right (by omega) hle

theorem compactTested_lt : compactTested c < 2 ^ 23 := by
  have hword : c.toNat % 2 ^ 23 < 2 ^ 23 := Nat.mod_lt _ (by positivity)
  unfold compactTested
  split
  · exact (Nat.div_le_self _ _).trans_lt hword
  · exact hword

/-! ## What writing leaves as it is -/

/-- A number that some word stands for, with neither flag raised. -/
def Representable (u : ℕ) : Prop :=
  ∃ c, (setCompact c).fNegative = false ∧ (setCompact c).fOverflow = false ∧
    (setCompact c).value.toNat = u

/-- A mantissa of 23 bits and some zero bytes are not rounded. -/
theorem roundCompact_mul_pow {m k : ℕ} (hm : m < 2 ^ 23) :
    roundCompact (m * 2 ^ (8 * k)) = m * 2 ^ (8 * k) := by
  have hsize : Nat.size (m * 2 ^ (8 * k)) ≤ 23 + 8 * k := by
    rw [Nat.size_le, pow_add]
    exact Nat.mul_lt_mul_of_pos_right hm (by positivity)
  have hdrop : compactDrop (m * 2 ^ (8 * k)) ≤ 8 * k := by
    unfold compactDrop compactExponent
    split <;> omega
  exact Nat.div_mul_cancel ((pow_dvd_pow 2 hdrop).trans (Dvd.intro_left _ rfl))

/-- **Representable numbers are not rounded.** -/
theorem Representable.roundCompact_eq {u : ℕ} (h : Representable u) : roundCompact u = u := by
  obtain ⟨c, -, hfit, rfl⟩ := h
  rw [toNat_setCompact_of_fits hfit]
  exact roundCompact_mul_pow (compactTested_lt c)

/-- A number of 256 bits is written with a mantissa of two bytes at most. -/
theorem compactMantissa_le_of_length {a : ArithUint256} (h : 32 < compactExponent a.toNat) :
    compactMantissa a.toNat ≤ 0xffff := by
  have hle := compactExponent_le a
  have hlt := a.toNat_lt
  rw [compactMantissa, show compactExponent a.toNat = 33 by omega, leadingBytes, if_neg (by omega)]
  omega

variable (a : ArithUint256)

/-- **Writing raises no flag.** -/
theorem getCompact_flags : (setCompact (getCompact a false)).fNegative = false ∧
      (setCompact (getCompact a false)).fOverflow = false := by
  have hlt := compactMantissa_lt a.toNat
  have hle := compactExponent_le a
  have hlong := compactMantissa_le_of_length (a := a)
  have hsize : (getCompact a false).toNat / 2 ^ 24 = compactExponent a.toNat := by
    rw [toNat_getCompact]
    omega
  have hword : (getCompact a false).toNat % 2 ^ 23 = compactMantissa a.toNat := by
    rw [toNat_getCompact]
    omega
  refine ⟨?_, ?_⟩
  · have hbit : (getCompact a false).toNat.testBit 23 = false := by
      rw [toNat_getCompact, Nat.testBit_eq_decide_div_mod_eq, decide_eq_false_iff_not]
      omega
    rw [fNegative_eq, hbit, Bool.and_false]
  · rw [fOverflow_eq, decide_eq_false_iff_not, compactTested, hsize, hword]
    by_cases h3 : compactExponent a.toNat ≤ 3
    · omega
    · rw [if_neg h3]
      omega

theorem representable_roundCompact : Representable (roundCompact a.toNat) :=
  ⟨getCompact a false, (getCompact_flags a).1, (getCompact_flags a).2,
    toNat_setCompact_getCompact a⟩

/-- **Writing rounds down** to the greatest number that can be written. -/
theorem isGreatest_roundCompact :
    IsGreatest {u | Representable u ∧ u ≤ a.toNat} (roundCompact a.toNat) := by
  refine ⟨⟨representable_roundCompact a, roundCompact_le _⟩, ?_⟩
  rintro u ⟨hu, hle⟩
  rw [← hu.roundCompact_eq]
  exact roundCompact_mono hle

/-! ## The order of the words -/

theorem compactExponent_mono {v v' : ℕ} (h : v ≤ v') : compactExponent v ≤ compactExponent v' := by
  have hsize := Nat.size_le_size h
  unfold compactExponent
  split <;> split <;> omega

theorem leadingBytes_mono {v v' : ℕ} (h : v ≤ v') (n : ℕ) :
    leadingBytes v n ≤ leadingBytes v' n := by
  unfold leadingBytes
  split
  · exact Nat.mul_le_mul_right _ h
  · exact Nat.div_le_div_right h

/-- **Words are in the order of the numbers** they are written for. -/
theorem getCompact_mono {a b : ArithUint256} (h : a.toNat ≤ b.toNat) :
    getCompact a false ≤ getCompact b false := by
  have hlt := compactMantissa_lt a.toNat
  rw [le_iff_toNat_le, toNat_getCompact, toNat_getCompact]
  rcases Nat.eq_or_lt_of_le (compactExponent_mono h) with heq | hlen
  · have hm : compactMantissa a.toNat ≤ compactMantissa b.toNat := by
      rw [compactMantissa, heq]
      exact leadingBytes_mono h _
    omega
  · omega

/-- **The compact format** rounds down to the greatest representable number, raises no flag on
what it wrote, and keeps the order. -/
theorem compact_encoding : (∀ v : ArithUint256,
      (setCompact (getCompact v false)).fNegative = false ∧
        (setCompact (getCompact v false)).fOverflow = false ∧
        IsGreatest {u | Representable u ∧ u ≤ v.toNat}
          (setCompact (getCompact v false)).value.toNat) ∧
      (∀ v : ArithUint256, Representable v.toNat → (setCompact (getCompact v false)).value = v) ∧
      (∀ v v' : ArithUint256, v.toNat ≤ v'.toNat →
        getCompact v false ≤ getCompact v' false ∧ (setCompact (getCompact v false)).value.toNat ≤
            (setCompact (getCompact v' false)).value.toNat) ∧
      ∀ w : UInt32, (setCompact w).fNegative = false → (setCompact w).fOverflow = false →
        (setCompact w).value.toNat ≠ 0 →
          (setCompact (getCompact (setCompact w).value false)).value = (setCompact w).value := by
  have hback : ∀ v : ArithUint256, Representable v.toNat →
      (setCompact (getCompact v false)).value = v := by
    intro v hv
    rw [← toNat_inj, toNat_setCompact_getCompact, hv.roundCompact_eq]
  refine ⟨fun v => ?_, hback, fun v v' h => ?_, fun w hneg hovf _ => ?_⟩
  · rw [toNat_setCompact_getCompact]
    exact ⟨(getCompact_flags v).1, (getCompact_flags v).2, isGreatest_roundCompact v⟩
  · rw [toNat_setCompact_getCompact, toNat_setCompact_getCompact]
    exact ⟨getCompact_mono h, roundCompact_mono h⟩
  · exact hback _ ⟨w, hneg, hovf, rfl⟩

end Quarlcoin.Arith
