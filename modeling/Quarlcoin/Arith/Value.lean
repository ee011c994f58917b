import Quarlcoin.Arith.Model
import Quarlcoin.Common.Digits
/-!
# Arithmetic — the limbs compute the integers

What each operator does to the value of a `BaseUint`. The operators that carry are carry
chains over the limbs (`Digits.value_carryChain`); the two shifts are read off bit by bit.
-/

namespace Quarlcoin.Arith

namespace BaseUint

open List UInt64 Digits Nat

variable {w : ℕ} (a : BaseUint w)

/-- The integer the limbs stand for. -/
def toNat : ℕ := value 32 (a.pn.map UInt32.toNat)

theorem limb_lt (L : List UInt32) : ∀ x ∈ L.map UInt32.toNat, x < 2 ^ 32 := by
  intro x hx
  obtain ⟨y, -, rfl⟩ := mem_map.1 hx
  exact y.toNat_lt

theorem toNat_lt : a.toNat < 2 ^ (32 * w) := by
  have h := value_lt (limb_lt a.pn)
  rwa [length_map, a.length_pn] at h

variable {a b : BaseUint w} {xs ys : List UInt32} {carry : UInt64} {j n : ℕ}

theorem toNat_inj : a.toNat = b.toNat ↔ a = b := by
  refine ⟨fun h => ?_, fun h => h ▸ rfl⟩
  have hmap : a.pn.map UInt32.toNat = b.pn.map UInt32.toNat :=
    ofDigits_inj_of_len_eq (by decide) (by rw [length_map, length_map, a.length_pn, b.length_pn])
      (limb_lt _) (limb_lt _) h
  have hpn : a.pn = b.pn := map_injective_iff.2 (fun _ _ => UInt32.toNat_inj.1) hmap
  cases a; cases b; simp only at hpn; subst hpn; rfl

theorem testBit_toNat (a : BaseUint w) (n : ℕ) :
    a.toNat.testBit n = (a.limb (n / 32)).toNat.testBit (n % 32) := by
  rw [toNat, testBit_value (by omega) (limb_lt _), limb]
  rw [List.getD_eq_getElem?_getD, List.getD_eq_getElem?_getD, getElem?_map]
  cases a.pn[n / 32]? <;> simp

theorem limb_of_le (a : BaseUint w) {i : ℕ} (h : w ≤ i) : a.limb i = 0 := by
  rw [limb, getD_eq_default _ _ (by rw [a.length_pn]; exact h)]

@[simp] theorem toNat_zero : (zero : BaseUint w).toNat = 0 := by simp [toNat, zero]

@[simp] theorem toNat_ofUInt64 (b : UInt64) : (ofUInt64 b : BaseUint (w + 2)).toNat = b.toNat := by
  have hb := b.toNat_lt
  simp only [toNat, ofUInt64, map_cons, map_replicate, UInt32.toNat_zero,
    value_cons, value_replicate_zero, toNat_toUInt32, UInt64.toNat_shiftRight]
  simp only [UInt64.reduceToNat, Nat.reduceMod]
  omega

/-! ## The operators that carry -/

theorem toNat_lowWord (n : UInt64) : (n &&& 0xffffffff).toUInt32.toNat = n.toNat % 2 ^ 32 := by
  rw [UInt64.toNat_toUInt32, UInt64.toNat_and, show (0xffffffff : UInt64).toNat = 2 ^ 32 - 1
    from rfl, and_two_pow_sub_one_eq_mod, mod_mod]

theorem toNat_highWord (n : UInt64) : (n >>> 32).toNat = n.toNat / 2 ^ 32 := by
  rw [UInt64.toNat_shiftRight, shiftRight_eq_div_pow]
  rfl

/-- The loop of the addition is a carry chain over the sums of the limbs,
as long as the carry in is at most one. -/
theorem map_addLoop (h : xs.length = ys.length) (hc : carry.toNat ≤ 1) :
    (addLoop carry xs ys).map UInt32.toNat = carryChain 32 carry.toNat
      (zipWith (· + ·) (xs.map UInt32.toNat) (ys.map UInt32.toNat)) := by
  induction xs generalizing ys carry with
  | nil => simp [addLoop, carryChain]
  | cons x xs ih =>
    cases ys with
    | nil => simp at h
    | cons y ys =>
      have hx := x.toNat_lt
      have hy := y.toNat_lt
      -- two limbs and a carry fit in 64 bits
      have hn : (carry + x.toUInt64 + y.toUInt64).toNat = carry.toNat + (x.toNat + y.toNat) := by
        simp only [UInt64.toNat_add, UInt32.toNat_toUInt64]
        omega
      have hcarry := toNat_highWord (carry + x.toUInt64 + y.toUInt64)
      rw [hn] at hcarry
      simp only [addLoop, map_cons, zipWith_cons_cons, carryChain, toNat_lowWord, hn]
      rw [ih (by simpa using h) (by rw [hcarry]; omega), hcarry]

/-- **`+=` adds**, modulo the width. -/
theorem toNat_add (a b : BaseUint w) : (a.add b).toNat = (a.toNat + b.toNat) % 2 ^ (32 * w) := by
  have hlen : a.pn.length = b.pn.length := by rw [a.length_pn, b.length_pn]
  rw [toNat, add, map_addLoop hlen (by simp), value_carryChain, value,
    ← ofDigits_add_ofDigits_eq_ofDigits_zipWith_of_length_eq (by simpa using hlen)]
  simp [toNat, value, a.length_pn, b.length_pn]

/-- The loop of the product is a carry chain over the products of the
limbs with the factor. -/
theorem map_mulLoop {b32 : UInt32} (hc : carry.toNat < 2 ^ 32) :
    (mulLoop carry b32 xs).map UInt32.toNat =
      carryChain 32 carry.toNat ((xs.map UInt32.toNat).map (b32.toNat * ·)) := by
  induction xs generalizing carry with
  | nil => simp [mulLoop, carryChain]
  | cons x xs ih =>
    have hx := x.toNat_lt
    have hb := b32.toNat_lt
    -- a product of two limbs leaves room for a carry of one limb
    have hle : b32.toNat * x.toNat ≤ (2 ^ 32 - 1) * (2 ^ 32 - 1) :=
      Nat.mul_le_mul (by omega) (by omega)
    have hn : (carry + b32.toUInt64 * x.toUInt64).toNat = carry.toNat + b32.toNat * x.toNat := by
      simp only [UInt64.toNat_add, UInt64.toNat_mul, UInt32.toNat_toUInt64]
      omega
    have hcarry := toNat_highWord (carry + b32.toUInt64 * x.toUInt64)
    rw [hn] at hcarry
    simp only [mulLoop, map_cons, carryChain, toNat_lowWord, hn]
    rw [ih (by rw [hcarry]; omega), hcarry]

/-- **`*=` by 32 bits multiplies**, modulo the width. -/
theorem toNat_mulUInt32 (a : BaseUint w) (b32 : UInt32) :
    (a.mulUInt32 b32).toNat = (b32.toNat * a.toNat) % 2 ^ (32 * w) := by
  rw [toNat, mulUInt32, map_mulLoop (by simp), value_carryChain, value_map_mul]
  simp [toNat, a.length_pn]

variable {x : UInt32} {as pn : List UInt32} {s r : ℕ}

/-- A row of the product adds a multiple of the other number to the limbs. -/
theorem value_mulAddLoop (h : as.length ≤ ys.length) (hc : carry.toNat < 2 ^ 32) :
    value 32 ((mulAddLoop carry x as ys).map UInt32.toNat) =
      (carry.toNat + value 32 (as.map UInt32.toNat) +
        x.toNat * value 32 (ys.map UInt32.toNat)) % 2 ^ (32 * as.length) := by
  induction as generalizing ys carry with
  | nil => simp [mulAddLoop, mod_one]
  | cons a as ih =>
    cases ys with
    | nil => simp at h
    | cons y ys => ?_
    have ha := a.toNat_lt
    have hx := x.toNat_lt
    have hy := y.toNat_lt
    -- a product of two limbs leaves room for two more
    have hle : x.toNat * y.toNat ≤ (2 ^ 32 - 1) * (2 ^ 32 - 1) :=
      Nat.mul_le_mul (by omega) (by omega)
    have hn : (carry + a.toUInt64 + x.toUInt64 * y.toUInt64).toNat =
        carry.toNat + a.toNat + x.toNat * y.toNat := by
      simp only [UInt64.toNat_add, UInt64.toNat_mul, UInt32.toNat_toUInt64]
      omega
    have hcarry := toNat_highWord (carry + a.toUInt64 + x.toUInt64 * y.toUInt64)
    rw [hn] at hcarry
    simp only [mulAddLoop, map_cons, value_cons, toNat_lowWord, hn]
    rw [ih (by simpa using h) (by rw [hcarry]; omega), hcarry, length_cons,
      ← add_mul_mod_pow (mod_lt _ (by positivity))]
    have hsplit := mod_add_div (carry.toNat + a.toNat + x.toNat * y.toNat) (2 ^ 32)
    rw [mul_add, mul_add, ← add_assoc, ← add_assoc, hsplit]
    ring_nf

theorem value_mulRows {b : List UInt32} (hlen : xs.length = as.length) (h : as.length ≤ b.length) :
    value 32 ((mulRows b xs as).map UInt32.toNat) =
      (value 32 (as.map UInt32.toNat) + value 32 (xs.map UInt32.toNat) *
        value 32 (b.map UInt32.toNat)) % 2 ^ (32 * as.length) := by
  induction xs generalizing as with
  | nil =>
    obtain rfl := eq_nil_of_length_eq_zero hlen.symm
    simp [mulRows]
  | cons x xs ih =>
    obtain ⟨a, as, rfl⟩ := exists_cons_of_length_eq_add_one hlen.symm
    have hrow := value_mulAddLoop (x := x) h (show (0 : UInt64).toNat < 2 ^ 32 by simp)
    have hlenRow := length_mulAddLoop 0 x (a :: as) b
    rw [mulRows]
    split
    · rename_i low rest heq
      rw [heq] at hrow hlenRow
      have hrest : rest.length = as.length := by simpa using hlenRow
      have hxs : xs.length = rest.length := by simpa [hrest] using hlen
      have hb : rest.length ≤ b.length := by
        rw [length_cons] at h
        omega
      have hfactor : value 32 ((x :: xs).map UInt32.toNat) =
          x.toNat + 2 ^ 32 * value 32 (xs.map UInt32.toNat) := value_cons ..
      rw [map_cons, value_cons, ih hxs hb, hrest,
        ← add_mul_mod_pow low.toNat_lt, mul_add, ← add_assoc,
        ← value_cons, ← map_cons, hrow, length_cons, mod_add_mod,
        UInt64.toNat_zero, hfactor]
      ring_nf
    · rename_i heq
      rw [heq] at hlenRow
      cases hlenRow

/-- **`*=` by another number multiplies**, modulo the width. -/
theorem toNat_mul (a b : BaseUint w) : (a.mul b).toNat = a.toNat * b.toNat % 2 ^ (32 * w) := by
  rw [toNat, mul, value_mulRows (by rw [a.length_pn, length_replicate])
    (by rw [b.length_pn, length_replicate]), map_replicate, UInt32.toNat_zero,
    value_replicate_zero, zero_add, length_replicate, toNat, toNat]

/-! ## The shifts

A pass of either loop ORs one limb into two, and no limb is hit twice by
the same half of the body, so the limbs after `n` passes have a closed
form. -/

theorem getD_orAt (pn : List UInt32) (i j : ℕ) (x : UInt32) : (orAt pn i x).getD j 0 =
      if i = j ∧ j < pn.length then pn.getD j 0 ||| x else pn.getD j 0 := by
  simp only [orAt]
  by_cases hij : i = j
  · subst hij
    by_cases hlt : i < pn.length
    · simp [hlt]
    · simp [hlt]
  · simp [hij]

section

variable (a) (k shift : ℕ)

theorem getD_shlBody (hlen : pn.length = w) (i : ℕ) (hj : j < w) :
    (shlBody a k shift pn i).getD j 0 = pn.getD j 0 |||
      (if i + k = j then a.limb i <<< UInt32.ofNat shift else 0) |||
      (if i + k + 1 = j ∧ shift ≠ 0 then a.limb i >>> UInt32.ofNat (32 - shift) else 0) := by
  unfold shlBody
  grind [getD_orAt, length_orAt]

theorem getD_shrBody (hlen : pn.length = w) (i : ℕ) (hj : j < w) :
    (shrBody a k shift pn i).getD j 0 = pn.getD j 0 |||
      (if i = j + k then a.limb i >>> UInt32.ofNat shift else 0) |||
      (if i = j + k + 1 ∧ shift ≠ 0 then a.limb i <<< UInt32.ofNat (32 - shift) else 0) := by
  unfold shrBody
  grind [getD_orAt, length_orAt]

theorem length_foldl_shlBody (n : ℕ) :
    ((range n).foldl (shlBody a k shift) (replicate w 0)).length = w := by
  induction n with
  | zero => simp
  | succ n ih => rw [range_succ, foldl_append, foldl_cons, foldl_nil, length_shlBody, ih]

theorem getD_foldl_shlBody (n : ℕ) (hj : j < w) :
    ((range n).foldl (shlBody a k shift) (replicate w 0)).getD j 0 =
      (if k ≤ j ∧ j - k < n then a.limb (j - k) <<< UInt32.ofNat shift else 0) |||
      (if k + 1 ≤ j ∧ j - k - 1 < n ∧ shift ≠ 0 then
        a.limb (j - k - 1) >>> UInt32.ofNat (32 - shift) else 0) := by
  induction n with
  | zero => simp
  | succ n ih =>
    rw [range_succ, foldl_append, foldl_cons, foldl_nil,
      getD_shlBody a k shift (length_foldl_shlBody a k shift n) n hj]
    grind [UInt32.or_zero]

theorem length_foldl_shrBody (n : ℕ) :
    ((range n).foldl (shrBody a k shift) (replicate w 0)).length = w := by
  induction n with
  | zero => simp
  | succ n ih => rw [range_succ, foldl_append, foldl_cons, foldl_nil, length_shrBody, ih]

theorem getD_foldl_shrBody (n : ℕ) (hj : j < w) :
    ((range n).foldl (shrBody a k shift) (replicate w 0)).getD j 0 =
      (if j + k < n then a.limb (j + k) >>> UInt32.ofNat shift else 0) |||
      (if j + k + 1 < n ∧ shift ≠ 0 then
        a.limb (j + k + 1) <<< UInt32.ofNat (32 - shift) else 0) := by
  induction n with
  | zero => simp
  | succ n ih =>
    rw [range_succ, foldl_append, foldl_cons, foldl_nil,
      getD_shrBody a k shift (length_foldl_shrBody a k shift n) n hj]
    grind [UInt32.or_zero]

theorem limb_shl (s : ℕ) (hj : j < w) : (a.shl s).limb j =
      (if s / 32 ≤ j then a.limb (j - s / 32) <<< UInt32.ofNat (s % 32) else 0) |||
      (if s / 32 + 1 ≤ j ∧ s % 32 ≠ 0 then
        a.limb (j - s / 32 - 1) >>> UInt32.ofNat (32 - s % 32) else 0) := by
  rw [limb, shl, getD_foldl_shlBody a _ _ w hj]
  grind

theorem limb_shr (s : ℕ) (hj : j < w) :
    (a.shr s).limb j = a.limb (j + s / 32) >>> UInt32.ofNat (s % 32) |||
      (if s % 32 ≠ 0 then a.limb (j + s / 32 + 1) <<< UInt32.ofNat (32 - s % 32) else 0) := by
  rw [limb, shr, getD_foldl_shrBody a _ _ w hj]
  grind [limb_of_le, UInt32.zero_shiftRight, UInt32.zero_shiftLeft]

theorem testBit_limb_of_le (i : ℕ) (hn : 32 ≤ n) : (a.limb i).toNat.testBit n = false :=
  testBit_lt_two_pow (lt_of_lt_of_le (a.limb i).toNat_lt (Nat.pow_le_pow_right (by omega) hn))

theorem testBit_shiftLeft (x : UInt32) (hs : s < 32) (hn : n < 32) :
    (x <<< UInt32.ofNat s).toNat.testBit n = (decide (s ≤ n) && x.toNat.testBit (n - s)) := by
  rw [UInt32.toNat_shiftLeft, UInt32.toNat_ofNat_of_lt' (by simp [UInt32.size]; omega), mod_eq_of_lt hs,
    testBit_mod_two_pow]
  simp [hn]

theorem testBit_shiftRight (x : UInt32) (hs : s < 32) :
    (x >>> UInt32.ofNat s).toNat.testBit n = x.toNat.testBit (s + n) := by
  rw [UInt32.toNat_shiftRight, UInt32.toNat_ofNat_of_lt' (by simp [UInt32.size]; omega), mod_eq_of_lt hs,
    Nat.testBit_shiftRight]

theorem testBit_ite (q : Prop) [Decidable q] (x : UInt32) (r : ℕ) :
    (if q then x else 0).toNat.testBit r = (decide q && x.toNat.testBit r) := by
  split <;> simp [*]

theorem testBit_limb_shl (s : ℕ) (hj : j < w) (hr : r < 32) : ((a.shl s).limb j).toNat.testBit r =
      (decide (s ≤ 32 * j + r) && a.toNat.testBit (32 * j + r - s)) := by
  have hs : s % 32 < 32 := mod_lt _ (by omega)
  rw [limb_shl a s hj, UInt32.toNat_or, testBit_or, testBit_toNat, testBit_ite, testBit_ite,
    testBit_shiftLeft _ hs hr]
  by_cases hsr : s % 32 ≤ r
  · -- the second half reads bits at or above `32`
    have e1 : (32 * j + r - s) / 32 = j - s / 32 := by omega
    have hhigh : (decide (s / 32 + 1 ≤ j ∧ s % 32 ≠ 0) &&
        (a.limb (j - s / 32 - 1) >>> UInt32.ofNat (32 - s % 32)).toNat.testBit r) = false := by
      by_cases h0 : s % 32 = 0
      · simp [h0]
      · rw [testBit_shiftRight _ (by omega), testBit_limb_of_le a _ (by omega), Bool.and_false]
    rw [hhigh, e1]
    by_cases hk : s / 32 ≤ j
    · have e2 : (32 * j + r - s) % 32 = r - s % 32 := by omega
      simp [hk, hsr, e2, show s ≤ 32 * j + r by omega]
    · simp [hk, show ¬ s ≤ 32 * j + r by omega]
  · rw [testBit_shiftRight _ (by omega)]
    by_cases hk : s / 32 + 1 ≤ j
    · have e1 : (32 * j + r - s) / 32 = j - s / 32 - 1 := by omega
      have e2 : (32 * j + r - s) % 32 = 32 - s % 32 + r := by omega
      rw [e1, e2]
      simp [hsr, hk, show s % 32 ≠ 0 by omega, show s ≤ 32 * j + r by omega]
    · simp [hsr, hk, show ¬ s ≤ 32 * j + r by omega]

theorem testBit_limb_shr (s : ℕ) (hj : j < w) (hr : r < 32) :
    ((a.shr s).limb j).toNat.testBit r = a.toNat.testBit (32 * j + r + s) := by
  have hs : s % 32 < 32 := mod_lt _ (by omega)
  rw [limb_shr a s hj, UInt32.toNat_or, testBit_or, testBit_toNat, testBit_shiftRight _ hs,
    testBit_ite]
  by_cases hsr : s % 32 + r < 32
  · have e1 : (32 * j + r + s) / 32 = j + s / 32 := by omega
    have e2 : (32 * j + r + s) % 32 = s % 32 + r := by omega
    by_cases h0 : s % 32 = 0
    · simp [h0, e1, e2]
    · rw [testBit_shiftLeft _ (by omega) hr, e1, e2]
      simp [show ¬ 32 - s % 32 ≤ r by omega]
  · have e1 : (32 * j + r + s) / 32 = j + s / 32 + 1 := by omega
    have e2 : (32 * j + r + s) % 32 = r - (32 - s % 32) := by omega
    rw [testBit_limb_of_le a _ (by omega), testBit_shiftLeft _ (by omega) hr, e1, e2]
    simp [show s % 32 ≠ 0 by omega, show 32 - s % 32 ≤ r by omega]

/-- **`<<=` multiplies by a power of two**, modulo the width. -/
theorem toNat_shl (s : ℕ) : (a.shl s).toNat = a.toNat * 2 ^ s % 2 ^ (32 * w) := by
  refine Nat.eq_of_testBit_eq fun n => ?_
  rw [testBit_toNat, testBit_mod_two_pow, testBit_mul_two_pow]
  by_cases hn : n / 32 < w
  · rw [testBit_limb_shl a s hn (mod_lt _ (by omega)), div_add_mod]
    simp [show n < 32 * w by omega]
  · simp [limb_of_le _ (Nat.le_of_not_lt hn), show ¬ n < 32 * w by omega]

/-- **`>>=` divides by a power of two**, rounding down. -/
theorem toNat_shr (s : ℕ) : (a.shr s).toNat = a.toNat / 2 ^ s := by
  refine Nat.eq_of_testBit_eq fun n => ?_
  rw [testBit_toNat, testBit_div_two_pow]
  by_cases hn : n / 32 < w
  · rw [testBit_limb_shr a s hn (mod_lt _ (by omega)), div_add_mod]
  · rw [limb_of_le _ (Nat.le_of_not_lt hn), testBit_toNat, limb_of_le _ (by omega)]
    simp

end

/-! ## Order, length and low words -/

theorem compareLoop_eq (h : xs.length = ys.length) :
    compareLoop xs ys = compare (value 32 (xs.reverse.map UInt32.toNat))
      (value 32 (ys.reverse.map UInt32.toNat)) := by
  induction xs generalizing ys with
  | nil =>
    cases ys with
    | nil => simp [compareLoop]
    | cons y ys => simp at h
  | cons x xs ih =>
    cases ys with
    | nil => simp at h
    | cons y ys =>
      have hlen : xs.length = ys.length := by simpa using h
      simp only [reverse_cons, map_append, map_cons, map_nil, compareLoop]
      rcases lt_trichotomy x.toNat y.toNat with hlt | heq | hgt
      · have := value_append_lt (L := xs.reverse.map UInt32.toNat)
          (M := ys.reverse.map UInt32.toNat) (by simpa using hlen) (limb_lt _) hlt
        rw [if_pos (UInt32.lt_iff_toNat_lt.2 hlt), (Nat.compare_eq_lt).2 this]
      · obtain rfl := UInt32.toNat_inj.1 heq
        rw [if_neg (UInt32.lt_irrefl _), if_neg (UInt32.lt_irrefl _), ih hlen]
        rw [value_append, value_append, length_map, length_map,
          length_reverse, length_reverse, hlen]
        simp [compare_eq_ite_lt]
      · have := value_append_lt (L := ys.reverse.map UInt32.toNat)
          (M := xs.reverse.map UInt32.toNat) (by simpa using hlen.symm) (limb_lt _) hgt
        rw [if_neg (UInt32.lt_asymm (UInt32.lt_iff_toNat_lt.2 hgt)),
          if_pos (UInt32.lt_iff_toNat_lt.2 hgt), (Nat.compare_eq_gt).2 this]

/-- **`CompareTo` compares the values.** -/
theorem compareTo_eq (a b : BaseUint w) : a.compareTo b = compare a.toNat b.toNat := by
  rw [compareTo, compareLoop_eq (by simp [a.length_pn, b.length_pn])]
  simp [toNat]

theorem lt_iff : a.lt b = true ↔ a.toNat < b.toNat := by simp [lt, compareTo_eq, Nat.compare_eq_lt]

theorem le_iff : a.le b = true ↔ a.toNat ≤ b.toNat := by simp [le, compareTo_eq, Nat.compare_eq_gt]

theorem toNat_limb (a : BaseUint w) (i : ℕ) :
    (a.limb i).toNat = a.toNat / 2 ^ (32 * i) % 2 ^ 32 := by
  refine Nat.eq_of_testBit_eq fun n => ?_
  rw [testBit_mod_two_pow, testBit_div_two_pow, testBit_toNat]
  by_cases hn : n < 32
  · simp [hn, show (n + 32 * i) / 32 = i by omega, show (n + 32 * i) % 32 = n by omega]
  · simp [hn, testBit_limb_of_le a i (Nat.le_of_not_lt hn)]

theorem toNat_one_shiftLeft (hn : n < 32) : ((1 : UInt32) <<< UInt32.ofNat n).toNat = 2 ^ n := by
  rw [UInt32.toNat_shiftLeft, UInt32.toNat_ofNat_of_lt' (by simp [UInt32.size]; omega),
    Nat.mod_eq_of_lt hn, UInt32.toNat_one, Nat.one_shiftLeft,
    Nat.mod_eq_of_lt (Nat.pow_lt_pow_right (by omega) hn)]

theorem and_one_shiftLeft_ne_zero (x : UInt32) (hn : n < 32) :
    x &&& ((1 : UInt32) <<< UInt32.ofNat n) ≠ 0 ↔ x.toNat.testBit n = true := by
  rw [ne_eq, ← UInt32.toNat_inj, UInt32.toNat_and, toNat_one_shiftLeft hn, and_two_pow]
  cases x.toNat.testBit n <;> simp

theorem limbBits_eq (hx : x ≠ 0) (hn : n < 32) (hlt : x.toNat < 2 ^ (n + 1)) :
    limbBits x n = size x.toNat := by
  have hpos : x.toNat ≠ 0 := fun h => hx (UInt32.toNat_inj.1 (by simpa using h))
  induction n with
  | zero =>
    have : x.toNat = 1 := by omega
    simp [limbBits, this]
  | succ n ih =>
    have hbit : (x &&& ((1 : UInt32) <<< UInt32.ofNat (n + 1)) ≠ 0) ↔ 2 ^ (n + 1) ≤ x.toNat := by
      rw [and_one_shiftLeft_ne_zero x hn]
      exact ⟨ge_two_pow_of_testBit, fun h => testBit_of_two_pow_le_and_two_pow_add_one_gt h hlt⟩
    rw [limbBits]
    split_ifs with h
    · have hge := hbit.1 h
      have h1 := size_le.2 hlt
      have h2 := lt_size.2 hge
      omega
    · exact ih (by omega) (by rw [hbit] at h; omega)

theorem bitsLoop_eq (a : BaseUint w) {pos : ℕ} (h : a.toNat < 2 ^ (32 * pos)) :
    a.bitsLoop pos = size a.toNat := by
  induction pos with
  | zero =>
    have : a.toNat = 0 := by simpa using h
    simp [bitsLoop, this]
  | succ pos ih =>
    have hlimb : (a.limb pos).toNat = a.toNat / 2 ^ (32 * pos) := by
      rw [toNat_limb, mod_eq_of_lt]
      rw [div_lt_iff_lt_mul (by positivity), ← pow_add]
      exact lt_of_lt_of_le h (Nat.pow_le_pow_right (by omega) (by omega))
    rw [bitsLoop]
    split
    · rename_i hne
      rw [limbBits_eq hne (by omega) (a.limb pos).toNat_lt, size_of_div hlimb.symm]
      intro h0
      exact hne (UInt32.toNat_inj.1 (by simpa using h0))
    · rename_i heq
      refine ih ?_
      rw [not_ne_iff.1 heq] at hlimb
      exact (div_eq_zero_iff_lt (by positivity)).1 hlimb.symm

/-- **`bits` is the binary length of the value.** -/
theorem bits_eq (a : BaseUint w) : a.bits = size a.toNat := bitsLoop_eq a a.toNat_lt

/-- **`EqualTo` compares the value with a machine word.** -/
theorem equalTo_iff {a : BaseUint (w + 2)} {b : UInt64} :
    a.equalTo b = true ↔ a.toNat = b.toNat := by
  rw [← toNat_ofUInt64 b, toNat_inj]
  constructor
  · intro h
    obtain ⟨pn, hlen⟩ := a
    match pn, hlen with
    | x :: y :: L, hlen =>
      simp only [equalTo, limb, Bool.and_eq_true, all_eq_true,
        beq_iff_eq, getD_cons_zero, getD_cons_succ] at h
      obtain ⟨⟨hL, hy⟩, hx⟩ := h
      have : L = replicate w 0 := eq_replicate_iff.2 ⟨by simpa using hlen, hL⟩
      have hx' : x = b.toUInt32 := by
        rw [hx]
        exact UInt32.toNat_inj.1 (by rw [toNat_lowWord, toNat_toUInt32])
      simp [ofUInt64, this, hy, hx']
  · rintro rfl
    have hlow : (b &&& 0xffffffff).toUInt32 = b.toUInt32 :=
      UInt32.toNat_inj.1 (by rw [toNat_lowWord, toNat_toUInt32])
    simp [equalTo, limb, ofUInt64, hlow]

theorem toNat_getLow64 (a : BaseUint w) : a.getLow64.toNat = a.toNat % 2 ^ 64 := by
  have h0 := (a.limb 0).toNat_lt
  have h1 := (a.limb 1).toNat_lt
  rw [getLow64, UInt64.toNat_or, UInt64.toNat_shiftLeft, UInt32.toNat_toUInt64, UInt32.toNat_toUInt64]
  have e : (32 : UInt64).toNat % 64 = 32 := rfl
  rw [e, Nat.mod_eq_of_lt (by rw [Nat.shiftLeft_eq]; omega), Nat.or_comm,
    ← Nat.shiftLeft_add_eq_or_of_lt h0,
    toNat_limb, toNat_limb]
  omega

end BaseUint

theorem toNat_uintToArith256 (a : Uint256) : (uintToArith256 a).toNat = a.toNat := by
  refine Nat.eq_of_testBit_eq fun n => ?_
  rw [BaseUint.testBit_toNat, BaseUint.limb, uintToArith256, List.getD_eq_getElem?_getD,
    List.getElem?_map]
  by_cases hn : n / 32 < 8
  · rw [List.getElem?_range hn]
    simp only [Option.map_some, Option.getD_some, UInt32.toNat_ofBitVec, BitVec.testBit_toNat]
    simp [Nat.mod_lt, Nat.div_add_mod]
  · have hlen : a.toNat.testBit n = false := Nat.testBit_lt_two_pow
      (lt_of_lt_of_le a.isLt (Nat.pow_le_pow_right (by omega) (by omega)))
    rw [List.getElem?_eq_none (by simp; omega), hlen]
    simp

end Quarlcoin.Arith
