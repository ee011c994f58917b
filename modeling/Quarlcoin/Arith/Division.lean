import Quarlcoin.Arith.Value
/-!
# Arithmetic — subtraction and division

The operators that go through the complement, and the shift-and-subtract loop of `/=`. One
induction on the bits left carries remainder and quotient together.
-/

namespace Quarlcoin.Arith

namespace BaseUint

open Nat

variable {w : ℕ} (a : BaseUint w)

/-- **`~` is the complement to the largest value.** -/
theorem toNat_complement : a.complement.toNat = 2 ^ (32 * w) - 1 - a.toNat := by
  have hdigit : a.complement.pn.map UInt32.toNat =
      (a.pn.map UInt32.toNat).map (2 ^ 32 - 1 - ·) := by
    simp only [complement]
    simp
  have h := Digits.value_map_complement (limb_lt a.pn)
  rw [← hdigit, List.length_map, a.length_pn] at h
  rw [toNat, h, toNat]

variable (xs : List UInt32)

theorem map_incLoop :
    (incLoop xs).map UInt32.toNat = Digits.carryChain 32 1 (xs.map UInt32.toNat) := by
  induction xs with
  | nil => rfl
  | cons x xs ih =>
    have hx := x.toNat_lt
    have hadd : (x + 1).toNat = (1 + x.toNat) % 2 ^ 32 := by
      rw [UInt32.toNat_add, add_comm, UInt32.toNat_one]
    rw [incLoop, List.map_cons, Digits.carryChain, ← hadd]
    split_ifs with h
    · have hcarry : (1 + x.toNat) / 2 ^ 32 = 1 := by
        rw [h, UInt32.toNat_zero] at hadd
        omega
      rw [List.map_cons, ih, hcarry]
    · have hcarry : (1 + x.toNat) / 2 ^ 32 = 0 := by
        rw [← UInt32.toNat_inj, UInt32.toNat_zero] at h
        omega
      rw [List.map_cons, hcarry, Digits.carryChain_zero (limb_lt xs)]

/-- **`++` adds one**, modulo the width. -/
theorem toNat_inc : a.inc.toNat = (a.toNat + 1) % 2 ^ (32 * w) := by
  rw [toNat, inc, map_incLoop, Digits.value_carryChain, List.length_map, a.length_pn,
    add_comm, toNat]

/-- **`-` negates**, modulo the width. -/
theorem toNat_neg : (a.neg.toNat : ℤ) = -(a.toNat : ℤ) % 2 ^ (32 * w) := by
  have ha := a.toNat_lt
  rw [neg, toNat_inc, toNat_complement,
    show 2 ^ (32 * w) - 1 - a.toNat + 1 = 2 ^ (32 * w) - a.toNat by omega, Int.natCast_emod,
    cast_sub ha.le, cast_pow, cast_ofNat, Int.sub_eq_add_neg,
    Int.add_emod_left]

/-- **`-=` subtracts**, modulo the width. -/
theorem toNat_sub_emod (a b : BaseUint w) :
    ((a.sub b).toNat : ℤ) = ((a.toNat : ℤ) - b.toNat) % 2 ^ (32 * w) := by
  rw [sub, toNat_add, Int.natCast_emod, cast_add, toNat_neg, cast_pow, cast_ofNat,
    Int.add_emod_emod, Int.sub_eq_add_neg]

theorem incLoop_decLoop : incLoop (decLoop xs) = xs := by
  induction xs with
  | nil => rfl
  | cons x xs ih =>
    rw [decLoop]
    split_ifs with h
    · have hx : x = 0 := by rw [← UInt32.sub_add_cancel x 1, h]; rfl
      rw [incLoop, UInt32.sub_add_cancel, if_pos hx, ih]
    have hx : x ≠ 0 := by
      rintro rfl
      exact h rfl
    rw [incLoop, UInt32.sub_add_cancel, if_neg hx]

/-- **`--` takes one off**, modulo the width. -/
theorem toNat_dec : (a.dec.toNat : ℤ) = ((a.toNat : ℤ) - 1) % 2 ^ (32 * w) := by
  have hinc : a.dec.inc.pn = a.pn := incLoop_decLoop a.pn
  have hlt : (a.dec.toNat : ℤ) < 2 ^ (32 * w) := by exact_mod_cast a.dec.toNat_lt
  have h := a.dec.toNat_inc
  rw [toNat, hinc, ← toNat] at h
  rw [h, Int.natCast_emod, cast_add, cast_one, cast_pow, cast_ofNat,
    Int.emod_sub_emod, add_sub_cancel_right, Int.emod_eq_of_lt (Int.natCast_nonneg _) hlt]

/-- **`-=` subtracts**, when the result is not negative. -/
theorem toNat_sub {a b : BaseUint w} (h : b.toNat ≤ a.toNat) :
    (a.sub b).toNat = a.toNat - b.toNat := by
  have ha := a.toNat_lt
  rw [sub, toNat_add, neg, toNat_inc, toNat_complement, add_mod_mod,
    show a.toNat + (2 ^ (32 * w) - 1 - b.toNat + 1) = a.toNat - b.toNat + 2 ^ (32 * w) by omega,
    add_mod_right, mod_eq_of_lt (by omega)]

/-! ## The division loop -/

theorem toNat_setBit (q : BaseUint w) {shift : ℕ} (hs : shift < 32 * w) {m : ℕ}
    (hq : q.toNat = 2 ^ (shift + 1) * m) : (q.setBit shift).toNat = q.toNat + 2 ^ shift := by
  have hor : (q.setBit shift).toNat = q.toNat ||| 2 ^ shift := by
    refine Nat.eq_of_testBit_eq fun n => ?_
    rw [testBit_toNat, Nat.testBit_or, testBit_toNat, Nat.testBit_two_pow, limb, setBit,
      getD_orAt, q.length_pn]
    by_cases hlimb : shift / 32 = n / 32
    · rw [if_pos ⟨hlimb, by omega⟩, UInt32.toNat_or, Nat.testBit_or,
        toNat_one_shiftLeft (Nat.mod_lt _ (by omega)), Nat.testBit_two_pow]
      congr 1
      rw [decide_eq_decide]
      omega
    · rw [if_neg (by omega), limb]
      simp [show shift ≠ n by rintro rfl; exact hlimb rfl]
  rw [hor, hq, Nat.two_pow_add_eq_or_of_lt (Nat.pow_lt_pow_right (by omega) (by omega))]

/-- **The shift-and-subtract loop divides**: the divisor stands shifted to the bit at hand, and
the quotient is clear from there down. -/
theorem toNat_divLoop {D : ℕ} (hD : 0 < D) (k : ℕ) {num div quot : BaseUint w} {m : ℕ}
    (hk : k ≤ 32 * w) (hdiv : ∀ j, k = j + 1 → div.toNat = D * 2 ^ j)
    (hnum : num.toNat < D * 2 ^ k) (hquot : quot.toNat = 2 ^ k * m) :
    (divLoop k num div quot).toNat = quot.toNat + num.toNat / D := by
  induction k generalizing num div quot m with
  | zero => simp [divLoop, div_eq_of_lt (by simpa using hnum)]
  | succ k ih =>
    have hd : div.toNat = D * 2 ^ k := hdiv k rfl
    have hpow : D * 2 ^ (k + 1) = D * 2 ^ k + D * 2 ^ k := by rw [pow_succ]; ring
    -- the divisor moves down by one bit, whatever the comparison says
    have hdiv' : ∀ j, k = j + 1 → (div.shr 1).toNat = D * 2 ^ j := by
      rintro j rfl
      rw [toNat_shr, hd, pow_succ, ← Nat.mul_assoc, pow_one, Nat.mul_div_cancel _ (by omega)]
    unfold divLoop
    split_ifs with hle
    · have hge : D * 2 ^ k ≤ num.toNat := hd ▸ le_iff.1 hle
      have hsub : (num.sub div).toNat = num.toNat - D * 2 ^ k := by rw [toNat_sub (hd ▸ hge), hd]
      have hset : (quot.setBit k).toNat = 2 ^ k * (2 * m + 1) := by
        rw [toNat_setBit quot (by omega) hquot, hquot]
        ring
      rw [ih (by omega) hdiv' (by rw [hsub]; omega) hset, hsub,
        toNat_setBit quot (by omega) hquot, add_assoc]
      obtain ⟨r, hr⟩ := Nat.exists_eq_add_of_le hge
      rw [hr, Nat.add_sub_cancel_left, Nat.mul_add_div hD]
    · have hlt' : num.toNat < D * 2 ^ k := by
        rw [← hd]
        exact Nat.lt_of_not_le (le_iff.not.1 hle)
      rw [ih (m := 2 * m) (by omega) hdiv' hlt' (by rw [hquot]; ring)]

/-- **`/=` divides**, and throws only on zero. -/
theorem toNat_div {a b : BaseUint w} (hb : 0 < b.toNat) :
    ∃ q, a.div b = some q ∧ q.toNat = a.toNat / b.toNat := by
  have hbits : ∀ x : BaseUint w, x.bits = size x.toNat := bits_eq
  have hpos : 0 < size b.toNat := size_pos.2 hb
  unfold div
  rw [hbits a, hbits b, if_neg (by omega)]
  split
  · refine ⟨zero, rfl, ?_⟩
    have : a.toNat < b.toNat := by
      by_contra hle
      have := size_le_size (Nat.le_of_not_lt hle)
      omega
    rw [toNat_zero, div_eq_of_lt this]
  · have ha : size a.toNat ≤ 32 * w := size_le.2 a.toNat_lt
    refine ⟨_, rfl, ?_⟩
    have hlead : 2 ^ (size b.toNat - 1) ≤ b.toNat := lt_size.1 (by omega)
    rw [toNat_divLoop hb (m := 0) _ (by omega) ?_ ?_ (by simp), toNat_zero, zero_add]
    · intro j hj
      obtain rfl : size a.toNat - size b.toNat = j := by omega
      rw [toNat_shl, mod_eq_of_lt]
      calc b.toNat * 2 ^ (size a.toNat - size b.toNat)
          < 2 ^ size b.toNat * 2 ^ (size a.toNat - size b.toNat) :=
            mul_lt_mul_of_pos_right (lt_size_self _) (by positivity)
        _ ≤ 2 ^ (32 * w) := by rw [← pow_add]; exact Nat.pow_le_pow_right (by omega) (by omega)
    · calc a.toNat < 2 ^ size a.toNat := lt_size_self _
        _ = 2 ^ (size b.toNat - 1) * 2 ^ (size a.toNat - size b.toNat + 1) := by
            rw [← pow_add]
            congr 1
            omega
        _ ≤ _ := mul_le_mul_right _ hlead

end BaseUint

end Quarlcoin.Arith
