import Mathlib.Data.Nat.Digits.Lemmas
import Mathlib.Data.Nat.Bitwise
import Mathlib.Data.Nat.Size
/-!
# Digit lists in a base that is a power of two

Digits in base `2 ^ w`, least significant first, with the value of `Nat.ofDigits`: which bit
of which digit a bit of the value is, what a chain of carries computes, and how digits
compare.
-/

namespace Quarlcoin.Digits

open List Nat

/-- The value of a digit list in base `2 ^ w`. -/
def value (w : ℕ) (L : List ℕ) : ℕ := ofDigits (2 ^ w) L

variable {w : ℕ} {L : List ℕ}

@[simp] theorem value_nil : value w [] = 0 := rfl

theorem value_cons (d : ℕ) (L : List ℕ) : value w (d :: L) = d + 2 ^ w * value w L := by
  simp [value, ofDigits_cons]

theorem value_append (L M : List ℕ) :
    value w (L ++ M) = value w L + 2 ^ (w * L.length) * value w M := by
  simp [value, ofDigits_append, pow_mul]

@[simp] theorem value_replicate_zero (k : ℕ) : value w (replicate k 0) = 0 :=
  ofDigits_replicate_zero

theorem value_lt (hL : ∀ x ∈ L, x < 2 ^ w) : value w L < 2 ^ (w * L.length) := by
  induction L with
  | nil => simp
  | cons d L ih =>
    have hd : d < 2 ^ w := hL d (by simp)
    have hih : value w L + 1 ≤ 2 ^ (w * L.length) := ih fun x hx => hL x (by simp [hx])
    rw [length_cons, mul_succ, pow_add]
    calc d + 2 ^ w * value w L < 2 ^ w * (value w L + 1) := by rw [mul_succ]; omega
      _ ≤ 2 ^ (w * L.length) * 2 ^ w := by rw [mul_comm]; exact mul_le_mul_right _ hih

/-- **A bit of the value is a bit of a digit.** -/
theorem testBit_value (hw : 0 < w) (hL : ∀ x ∈ L, x < 2 ^ w) (n : ℕ) :
    (value w L).testBit n = (L.getD (n / w) 0).testBit (n % w) := by
  induction L generalizing n with
  | nil => simp
  | cons d L ih =>
    have hd : d < 2 ^ w := hL d (by simp)
    rw [value_cons, add_comm, testBit_two_pow_mul_add _ hd]
    by_cases hn : n < w
    · simp [hn, div_eq_of_lt hn, mod_eq_of_lt hn]
    have hdiv : n / w = (n - w) / w + 1 := by
      rw [← Nat.sub_add_cancel (Nat.le_of_not_lt hn), Nat.add_div_right _ hw]
      simp
    have hmod : n % w = (n - w) % w := (mod_eq_sub_mod (Nat.le_of_not_lt hn))
    rw [if_neg hn, ih (fun x hx => hL x (by simp [hx])), hdiv, hmod, getD_cons_succ]

/-! ## Chains of carries -/

/-- The carry chain in base `2 ^ w`. The carry out of the last column is lost. -/
def carryChain (w : ℕ) : ℕ → List ℕ → List ℕ
  | _, [] => []
  | c, x :: xs => (c + x) % 2 ^ w :: carryChain w ((c + x) / 2 ^ w) xs

theorem add_mul_mod_pow {d : ℕ} (hd : d < 2 ^ w) (m n : ℕ) :
    (d + 2 ^ w * m) % 2 ^ (w * (n + 1)) = d + 2 ^ w * (m % 2 ^ (w * n)) := by
  rw [mul_succ, add_comm (w * n), pow_add, mod_mul, add_mul_mod_self_left,
    mod_eq_of_lt hd, add_mul_div_left _ _ (by positivity), div_eq_of_lt hd, zero_add]

/-- **A carry chain adds its columns up**, modulo the width of the list. -/
theorem value_carryChain (c : ℕ) (L : List ℕ) :
    value w (carryChain w c L) = (c + value w L) % 2 ^ (w * L.length) := by
  induction L generalizing c with
  | nil => simp [carryChain, mod_one]
  | cons x L ih =>
    have hsplit := mod_add_div (c + x) (2 ^ w)
    rw [carryChain, value_cons, ih, value_cons, length_cons,
      ← add_mul_mod_pow (mod_lt _ (by positivity)), mul_add, ← add_assoc, hsplit,
      add_assoc]

theorem value_map_mul (b : ℕ) (L : List ℕ) : value w (L.map (b * ·)) = b * value w L := by
  induction L with
  | nil => simp
  | cons d L ih => rw [map_cons, value_cons, value_cons, ih]; ring

/-- A chain without a carry in leaves a digit list as it is. -/
theorem carryChain_zero (hL : ∀ x ∈ L, x < 2 ^ w) : carryChain w 0 L = L := by
  induction L with
  | nil => rfl
  | cons d L ih =>
    have hd : d < 2 ^ w := hL d (by simp)
    rw [carryChain, zero_add, mod_eq_of_lt hd, div_eq_of_lt hd, ih fun x hx => hL x (by simp [hx])]

theorem value_map_complement (hL : ∀ x ∈ L, x < 2 ^ w) :
    value w (L.map (2 ^ w - 1 - ·)) = 2 ^ (w * L.length) - 1 - value w L := by
  induction L with
  | nil => simp
  | cons d L ih =>
    have hd : d < 2 ^ w := hL d (by simp)
    have hL' : ∀ x ∈ L, x < 2 ^ w := fun x hx => hL x (by simp [hx])
    have hlt := value_lt hL'
    obtain ⟨k, hk⟩ := Nat.exists_eq_add_of_lt hlt
    have hsub : 2 ^ (w * L.length) - 1 - value w L = k := by omega
    rw [map_cons, value_cons, ih hL', hsub, value_cons, length_cons, mul_succ, pow_add, hk]
    have : (value w L + k + 1) * 2 ^ w = 2 ^ w * value w L + 2 ^ w * k + 2 ^ w := by ring
    omega

/-! ## Comparison -/

/-- A larger top digit makes a larger value, whatever the digits below. -/
theorem value_append_lt {L M : List ℕ} {x y : ℕ} (hlen : L.length = M.length)
    (hL : ∀ z ∈ L, z < 2 ^ w) (h : x < y) : value w (L ++ [x]) < value w (M ++ [y]) := by
  rw [value_append, value_append, hlen]
  have hlt := value_lt hL
  rw [hlen] at hlt
  calc value w L + 2 ^ (w * M.length) * x < 2 ^ (w * M.length) * (x + 1) := by
        rw [mul_succ]; omega
    _ ≤ 2 ^ (w * M.length) * y := mul_le_mul_left _ h
    _ ≤ _ := le_add_left _ _

/-! ## Length -/

/-- The length of a number is that of its top part, plus the width below. -/
theorem size_of_div {n x k : ℕ} (h : n / 2 ^ k = x) (hx : x ≠ 0) : size n = k + size x := by
  refine le_antisymm ?_ ?_
  · rw [size_le, pow_add, mul_comm, ← div_lt_iff_lt_mul (by positivity), h]
    exact lt_size_self x
  · obtain ⟨m, hm⟩ : ∃ m, size x = m + 1 := exists_eq_succ_of_ne_zero (size_eq_zero.not.2 hx)
    have hle : 2 ^ m ≤ x := lt_size.1 (by omega)
    rw [hm, ← add_assoc, succ_le_iff, lt_size, pow_add, mul_comm, ← le_div_iff_mul_le (by positivity), h]
    exact hle

end Quarlcoin.Digits
