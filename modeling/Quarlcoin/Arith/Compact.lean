import Quarlcoin.Arith.Value
/-!
# Arithmetic — the compact format

`SetCompact` and `GetCompact` on the values. Writing a target and reading it back clears the
bytes below a mantissa of at most 23 bits: `roundCompact` is that map on the integers.
-/

namespace Quarlcoin.Arith

open BaseUint UInt32 UInt64 Nat

/-! ## The format on integers -/

variable (v : ℕ)

/-- The byte length the format writes: one more when the leading bit would land on the sign bit.
-/
def compactExponent : ℕ := if v = 0 then 0 else size v / 8 + 1

def leadingBytes (v n : ℕ) : ℕ :=
  if n ≤ 3 then v * 2 ^ (8 * (3 - n)) else v / 2 ^ (8 * (n - 3))

def compactMantissa : ℕ := leadingBytes v (compactExponent v)

def compactDrop : ℕ := 8 * (compactExponent v - 3)

/-- What is left of a number after it has been written and read back. -/
def roundCompact : ℕ := v / 2 ^ compactDrop v * 2 ^ compactDrop v

theorem roundCompact_le : roundCompact v ≤ v := div_mul_le_self _ _

theorem compactDrop_mono {v v' : ℕ} (h : v ≤ v') : compactDrop v ≤ compactDrop v' := by
  have hsize := size_le_size h
  unfold compactDrop compactExponent
  split <;> split <;> omega

theorem two_pow_le_roundCompact {v k : ℕ} (hk : compactDrop v ≤ k) (h : 2 ^ k ≤ v) :
    2 ^ k ≤ roundCompact v := by
  obtain ⟨m, rfl⟩ := Nat.exists_eq_add_of_le hk
  rw [add_comm, pow_add] at h ⊢
  exact mul_le_mul_right _ ((le_div_iff_mul_le (by positivity)).2 h)

/-- **Rounding keeps the order.** -/
theorem roundCompact_mono {v v' : ℕ} (h : v ≤ v') : roundCompact v ≤ roundCompact v' := by
  rcases eq_or_lt_of_le (compactDrop_mono h) with hd | hd
  · -- the same bits are dropped on both sides
    unfold roundCompact
    rw [hd]
    exact Nat.mul_le_mul_right _ (Nat.div_le_div_right h)
  · -- the larger number is longer, and its leading bit alone exceeds the smaller
    have hpos : 0 < compactDrop v' := by omega
    have hlen : size v < size v' ∧ compactDrop v' + 1 ≤ size v' := by
      unfold compactDrop compactExponent at hd hpos ⊢
      split at hd <;> split at hd <;> rename_i h0 h0' <;> simp only [h0', if_false] at hpos ⊢
      · omega
      · subst h0
        simp only [size_zero]
        omega
      · omega
      · omega
    have hlead : 2 ^ (size v' - 1) ≤ v' := lt_size.1 (by omega)
    calc roundCompact v ≤ v := roundCompact_le v
      _ ≤ 2 ^ (size v' - 1) :=
          (lt_size_self v).le.trans (Nat.pow_le_pow_right (by omega) (by omega))
      _ ≤ roundCompact v' := two_pow_le_roundCompact (by omega) hlead

/-- Each byte the length exceeds the number by is a leading byte of zeros. -/
theorem leadingBytes_lt {v n k : ℕ} (h : size v + 24 ≤ 8 * n + k) : leadingBytes v n < 2 ^ k := by
  have hv := lt_size_self v
  unfold leadingBytes
  split
  · calc v * 2 ^ (8 * (3 - n)) < 2 ^ size v * 2 ^ (8 * (3 - n)) :=
          mul_lt_mul_of_pos_right hv (by positivity)
      _ ≤ 2 ^ k := by rw [← pow_add]; exact Nat.pow_le_pow_right (by omega) (by omega)
  · rw [div_lt_iff_lt_mul (by positivity), ← pow_add]
    exact lt_of_lt_of_le hv (Nat.pow_le_pow_right (by omega) (by omega))

theorem leadingBytes_succ (v n : ℕ) : leadingBytes v (n + 1) = leadingBytes v n / 2 ^ 8 := by
  unfold leadingBytes
  rcases lt_trichotomy n 3 with h | rfl | h
  · rw [if_pos (by omega), if_pos (by omega), show 8 * (3 - n) = 8 * (3 - (n + 1)) + 8 by omega,
      pow_add, ← Nat.mul_assoc, Nat.mul_div_cancel _ (by positivity)]
  · simp
  · rw [if_neg (by omega), if_neg (by omega), Nat.div_div_eq_div_mul, ← pow_add]
    congr 2
    omega

theorem compactMantissa_lt : compactMantissa v < 2 ^ 23 := by
  unfold compactMantissa compactExponent
  by_cases h0 : v = 0
  · simp [h0, leadingBytes]
  · rw [if_neg h0]
    exact leadingBytes_lt (by omega)

/-! ## Reading -/

variable (c : UInt32)

theorem toNat_and_mantissaMask : (c &&& 0x007fffff).toNat = c.toNat % 2 ^ 23 := by
  rw [UInt32.toNat_and, show (0x007fffff : UInt32).toNat = 2 ^ 23 - 1 from rfl,
    and_two_pow_sub_one_eq_mod]

theorem toNat_shiftRight_size : (c >>> 24).toNat = c.toNat / 2 ^ 24 := by
  rw [UInt32.toNat_shiftRight, shiftRight_eq_div_pow]
  rfl

/-- **`SetCompact` scales the mantissa** by the size field, modulo 256 bits. -/
theorem toNat_setCompact : (setCompact c).value.toNat =
      if c.toNat / 2 ^ 24 ≤ 3 then c.toNat % 2 ^ 23 / 2 ^ (8 * (3 - c.toNat / 2 ^ 24))
      else c.toNat % 2 ^ 23 * 2 ^ (8 * (c.toNat / 2 ^ 24 - 3)) % 2 ^ 256 := by
  simp only [setCompact, toNat_shiftRight_size]
  split
  · have hs : 8 * (3 - c.toNat / 2 ^ 24) < 32 := by omega
    rw [toNat_ofUInt64, toNat_toUInt64, UInt32.toNat_shiftRight,
      UInt32.toNat_ofNat_of_lt' (by simp only [UInt32.size]; omega), toNat_and_mantissaMask,
      shiftRight_eq_div_pow, mod_eq_of_lt hs]
  · rw [toNat_shl, toNat_ofUInt64, toNat_toUInt64, toNat_and_mantissaMask]

/-! ## Writing -/

section

variable (a : ArithUint256)
include a

theorem compactSize_eq : compactSize a = ceilDiv (size a.toNat) 8 := by rw [compactSize, bits_eq]

theorem toNat_compactWord : (compactWord a).toNat = leadingBytes a.toNat (compactSize a) := by
  have hsize : size a.toNat ≤ 8 * compactSize a := by
    rw [compactSize_eq, ceilDiv]
    split <;> omega
  have hlt : leadingBytes a.toNat (compactSize a) < 2 ^ 24 := leadingBytes_lt (by omega)
  unfold leadingBytes at hlt ⊢
  unfold compactWord
  split_ifs with h
  · rw [if_pos h] at hlt
    have hlow : a.toNat < 2 ^ 64 := lt_of_lt_of_le (lt_size_self _)
      (Nat.pow_le_pow_right (by omega) (by omega))
    have hs : 8 * (3 - compactSize a) < 64 := by omega
    rw [toNat_toUInt32, UInt64.toNat_shiftLeft, toNat_getLow64, mod_eq_of_lt hlow,
      UInt64.toNat_ofNat_of_lt' (by simp only [UInt64.size]; omega), mod_eq_of_lt hs]
    omega
  · rw [if_neg h] at hlt
    rw [toNat_toUInt32, toNat_getLow64, toNat_shr,
      mod_eq_of_lt (hlt.trans (by norm_num)), mod_eq_of_lt (hlt.trans (by norm_num))]

/-- The sign bit of the leading bytes is set just when the number fills
its last byte. -/
theorem compactWord_sign_iff :
    2 ^ 23 ≤ (compactWord a).toNat ↔ a.toNat ≠ 0 ∧ 8 * compactSize a = size a.toNat := by
  have hsize := compactSize_eq a
  rw [← lt_size, toNat_compactWord, leadingBytes]
  by_cases h0 : a.toNat = 0
  · simp [h0]
  unfold ceilDiv at hsize
  split
  · rw [← shiftLeft_eq, size_shiftLeft h0]
    split at hsize <;> omega
  have hlead : 8 * (compactSize a - 3) < size a.toNat := by split at hsize <;> omega
  have hne : a.toNat / 2 ^ (8 * (compactSize a - 3)) ≠ 0 := by
    have := (Nat.le_div_iff_mul_le (by positivity)).2
      ((Nat.one_mul _).trans_le (Nat.lt_size.1 hlead))
    omega
  have := Digits.size_of_div rfl hne
  split at hsize <;> omega

/-- The length `GetCompact` writes, after the step that clears the sign bit. -/
theorem compactExponent_eq : compactExponent a.toNat =
      if 2 ^ 23 ≤ (compactWord a).toNat then compactSize a + 1 else compactSize a := by
  have hsize := compactSize_eq a
  unfold ceilDiv at hsize
  rw [if_congr (compactWord_sign_iff a) rfl rfl, compactExponent]
  by_cases h0 : a.toNat = 0
  · simpa [h0] using hsize.symm
  · rw [if_neg h0]
    split at hsize <;> split <;> omega

theorem compactMantissa_eq : compactMantissa a.toNat =
      if 2 ^ 23 ≤ (compactWord a).toNat then (compactWord a).toNat / 2 ^ 8 else
        (compactWord a).toNat := by
  rw [compactMantissa, compactExponent_eq, toNat_compactWord]
  split
  · exact leadingBytes_succ _ _
  · rfl

theorem compactExponent_le : compactExponent a.toNat ≤ 33 := by
  have hsize : size a.toNat ≤ 256 := size_le.2 a.toNat_lt
  unfold compactExponent
  split <;> omega

theorem compactWord_and_signBit :
    (compactWord a &&& 0x00800000 != 0) = decide (2 ^ 23 ≤ (compactWord a).toNat) := by
  have hlt : (compactWord a).toNat < 2 ^ 24 := by
    rw [toNat_compactWord]
    refine leadingBytes_lt ?_
    rw [compactSize_eq, ceilDiv]
    split <;> omega
  have hbit := and_one_shiftLeft_ne_zero (compactWord a) (show 23 < 32 by omega)
  rw [show (1 : UInt32) <<< UInt32.ofNat 23 = 0x00800000 from rfl] at hbit
  rw [Bool.eq_iff_iff, bne_iff_ne, decide_eq_true_iff, hbit]
  exact ⟨ge_two_pow_of_testBit, fun h => testBit_of_two_pow_le_and_two_pow_add_one_gt h hlt⟩

/-- What `GetCompact` has in hand at its two assertions. -/
theorem compact_fields :
    (if compactWord a &&& 0x00800000 != 0 then compactWord a >>> 8 else compactWord a).toNat =
        compactMantissa a.toNat ∧
      (if compactWord a &&& 0x00800000 != 0 then compactSize a + 1 else compactSize a) =
        compactExponent a.toNat := by
  have hshift : (compactWord a >>> 8).toNat = (compactWord a).toNat / 2 ^ 8 := by
    rw [UInt32.toNat_shiftRight, shiftRight_eq_div_pow]
    rfl
  rw [compactWord_and_signBit, compactMantissa_eq, compactExponent_eq]
  by_cases h : 2 ^ 23 ≤ (compactWord a).toNat
  · simp only [h, decide_true, if_true, hshift, and_self]
  · simp only [h, decide_false, Bool.false_eq_true, if_false, and_self]

/-- **`GetCompact` writes length and mantissa**, in disjoint fields. -/
theorem toNat_getCompact :
    (getCompact a false).toNat = 2 ^ 24 * compactExponent a.toNat + compactMantissa a.toNat := by
  obtain ⟨hword, hsize⟩ := compact_fields a
  have hle := compactExponent_le a
  have hlt := compactMantissa_lt a.toNat
  have hor : (UInt32.ofNat (compactExponent a.toNat) <<< 24).toNat =
      compactExponent a.toNat <<< 24 := by
    rw [UInt32.toNat_shiftLeft, UInt32.toNat_ofNat_of_lt' (by simp only [UInt32.size]; omega),
      show (24 : UInt32).toNat % 32 = 24 from rfl]
    omega
  simp only [getCompact, Bool.false_and, Bool.false_eq_true, if_false, UInt32.or_zero]
  rw [UInt32.toNat_or, hword, hsize, hor, Nat.or_comm,
    ← shiftLeft_add_eq_or_of_lt (hlt.trans (by norm_num)), shiftLeft_eq, mul_comm]

end

/-! ## Writing and reading back -/

/-- **Writing a target and reading it back rounds it.** -/
theorem toNat_setCompact_getCompact (a : ArithUint256) :
    (setCompact (getCompact a false)).value.toNat = roundCompact a.toNat := by
  have hlt := compactMantissa_lt a.toNat
  rw [toNat_setCompact, toNat_getCompact]
  have hsize : (2 ^ 24 * compactExponent a.toNat + compactMantissa a.toNat) / 2 ^ 24 =
      compactExponent a.toNat := by omega
  have hword : (2 ^ 24 * compactExponent a.toNat + compactMantissa a.toNat) % 2 ^ 23 =
      compactMantissa a.toNat := by omega
  rw [hsize, hword, roundCompact, compactDrop, compactMantissa, leadingBytes]
  by_cases h : compactExponent a.toNat ≤ 3
  · simp [h]
  · rw [if_neg h, if_neg h, mod_eq_of_lt]
    exact lt_of_le_of_lt (div_mul_le_self _ _) a.toNat_lt

end Quarlcoin.Arith
