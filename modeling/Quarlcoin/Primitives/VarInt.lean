import Mathlib.Data.Nat.Bitwise
import Quarlcoin.Primitives.Serialize
/-!
# Integers of variable length

`WriteVarInt` and `ReadVarInt` of `serialize.h`: seven bits in a byte, the high ones first.
A number is one less in each byte that others follow, so that no two encodings stand for the
same number. The type of the integer is given by its greatest value `max`.
-/

namespace Quarlcoin.Serialize

open Codec List Nat

/-- The bytes `tmp[len]`, `tmp[len + 1]` and on that the loop of `WriteVarInt`
fills. -/
def varIntTmp (len : ℕ) (n : ℕ) : List UInt8 :=
  UInt8.ofNat ((n &&& 0x7f) ||| if len ≠ 0 then 0x80 else 0) ::
    if h : n ≤ 0x7f then [] else varIntTmp (len + 1) ((n >>> 7) - 1)
termination_by n
decreasing_by
  rw [shiftRight_eq_div_pow]
  omega

variable (n : ℕ)

def writeVarInt : List UInt8 := (varIntTmp 0 n).reverse

def readVarIntLoop (max : ℕ) : ℕ → Stream ℕ
  | _, [] => .error .endOfData
  | n, chData :: is =>
    if n > max >>> 7 then .error .varIntTooLarge
    else
      let n := (n <<< 7) ||| (chData &&& 0x7f).toNat
      if chData &&& 0x80 ≠ 0 then
        if n = max then .error .varIntTooLarge else readVarIntLoop max (n + 1) is
      else .ok (n, is)

def readVarInt (max : ℕ) : Stream ℕ := readVarIntLoop max 0

/-! ## Reading back -/

theorem varIntByte :
    (UInt8.ofNat (n &&& 0x7f) &&& 0x7f).toNat = n % 128 ∧ UInt8.ofNat (n &&& 0x7f) &&& 0x80 = 0 ∧
      (UInt8.ofNat ((n &&& 0x7f) ||| 0x80) &&& 0x7f).toNat = n % 128 ∧
      UInt8.ofNat ((n &&& 0x7f) ||| 0x80) &&& 0x80 ≠ 0 := by
  have hall : ∀ low < 128,
      (UInt8.ofNat low &&& 0x7f).toNat = low ∧ UInt8.ofNat low &&& 0x80 = 0 ∧
        (UInt8.ofNat (low ||| 0x80) &&& 0x7f).toNat = low ∧
        UInt8.ofNat (low ||| 0x80) &&& 0x80 ≠ 0 := by decide +kernel
  rw [show n &&& 0x7f = n % 128 from and_two_pow_sub_one_eq_mod n 7]
  exact hall _ (mod_lt n (by norm_num))

theorem shiftLeft_div_or : (n / 128) <<< 7 ||| n % 128 = n := by
  rw [← shiftLeft_add_eq_or_of_lt (mod_lt n (by norm_num)), shiftLeft_eq]
  exact div_add_mod' n 128

section

variable {max n : ℕ}

theorem not_div_gt (h : n ≤ max) : ¬ n / 128 > max >>> 7 := by
  rw [shiftRight_eq_div_pow, not_lt]
  exact Nat.div_le_div_right h

theorem readVarIntLoop_cons (h : n < max) (is : List UInt8) :
    readVarIntLoop max (n / 128) (UInt8.ofNat ((n &&& 0x7f) ||| 0x80) :: is) =
      readVarIntLoop max (n + 1) is := by
  obtain ⟨-, -, hlow, hmark⟩ := varIntByte n
  rw [readVarIntLoop, if_neg (not_div_gt h.le), if_pos hmark, hlow, shiftLeft_div_or, if_neg h.ne]

theorem readVarIntLoop_last (h : n ≤ max) (is : List UInt8) :
    readVarIntLoop max (n / 128) (UInt8.ofNat (n &&& 0x7f) :: is) = .ok (n, is) := by
  obtain ⟨hlow, hmark, -⟩ := varIntByte n
  rw [readVarIntLoop, if_neg (not_div_gt h), if_neg (not_not.2 hmark), hlow, shiftLeft_div_or]

/-- The bytes of a number above the low bits of the last one. -/
def varIntHigh (m : ℕ) : List UInt8 := if m = 0 then [] else (varIntTmp 1 (m - 1)).reverse

theorem varIntTmp_succ (len n : ℕ) : varIntTmp (len + 1) n = varIntTmp 1 n := by
  induction n using Nat.strong_induction_on generalizing len with
  | _ n ih =>
    rw [varIntTmp.eq_def (len + 1), varIntTmp.eq_def 1, if_pos (by simp), if_pos (by simp)]
    split
    · rfl
    · have hlt : n >>> 7 - 1 < n := by
        omega
      rw [ih _ hlt (len + 1), ih _ hlt 1]

theorem reverse_varIntTmp (len n : ℕ) : (varIntTmp len n).reverse = varIntHigh (n / 128) ++
      [UInt8.ofNat ((n &&& 0x7f) ||| if len ≠ 0 then 0x80 else 0)] := by
  rw [varIntTmp, reverse_cons, varIntHigh]
  by_cases h : n ≤ 0x7f
  · rw [dif_pos h, if_pos (show n / 128 = 0 by omega), reverse_nil]
  · rw [dif_neg h, if_neg (show n / 128 ≠ 0 by omega), varIntTmp_succ,
      show n >>> 7 = n / 128 from shiftRight_eq_div_pow n 7]

theorem varIntHigh_succ (n : ℕ) :
    varIntHigh (n + 1) = varIntHigh (n / 128) ++ [UInt8.ofNat ((n &&& 0x7f) ||| 0x80)] := by
  rw [varIntHigh, if_neg (by omega), Nat.add_sub_cancel, reverse_varIntTmp, if_pos (by simp)]

theorem writeVarInt_eq (n : ℕ) :
    writeVarInt n = varIntHigh (n / 128) ++ [UInt8.ofNat (n &&& 0x7f)] := by
  rw [writeVarInt, reverse_varIntTmp, if_neg (by simp), or_zero]

/-- **The bytes above the last** leave the loop with the bits above. -/
theorem readVarIntLoop_varIntHigh (h : n ≤ max) (is : List UInt8) :
    readVarIntLoop max 0 (varIntHigh n ++ is) = readVarIntLoop max n is := by
  induction n using Nat.strong_induction_on generalizing is with
  | _ n ih =>
    cases n with
    | zero => rfl
    | succ n =>
      rw [varIntHigh_succ, append_assoc, ih (n / 128) (by omega) (by omega)]
      exact readVarIntLoop_cons h is

end

/-- **What `WriteVarInt` writes, `ReadVarInt` reads**, if the type of the
integer holds it. -/
theorem decodes_readVarInt (max : ℕ) : Decodes writeVarInt (readVarInt max) (· ≤ max) := by
  intro n hn rest
  rw [writeVarInt_eq, append_assoc, readVarInt, readVarIntLoop_varIntHigh (by omega)]
  exact readVarIntLoop_last hn rest

theorem writeVarInt_of_lt {n : ℕ} (h : n < 128) : writeVarInt n = [UInt8.ofNat n] := by
  rw [writeVarInt_eq, div_eq_of_lt h,
    show n &&& 0x7f = n % 128 from and_two_pow_sub_one_eq_mod n 7, mod_eq_of_lt h]
  rfl

/-! ## No second encoding -/

theorem varIntByte_eq (b : UInt8) :
    UInt8.ofNat ((b &&& 0x7f).toNat ||| if b &&& 0x80 ≠ 0 then 0x80 else 0) = b := by
  have hall : ∀ n < 256, UInt8.ofNat ((UInt8.ofNat n &&& 0x7f).toNat |||
      if UInt8.ofNat n &&& 0x80 ≠ 0 then 0x80 else 0) = UInt8.ofNat n := by decide +kernel
  simpa using hall b.toNat b.toNat_lt

theorem varIntStep (m : ℕ) (b : UInt8) : (m <<< 7 ||| (b &&& 0x7f).toNat) / 128 = m ∧
      (m <<< 7 ||| (b &&& 0x7f).toNat) &&& 0x7f = (b &&& 0x7f).toNat := by
  have hlow : (b &&& 0x7f).toNat < 2 ^ 7 := by exact lt_of_le_of_lt and_le_right (by decide)
  rw [← shiftLeft_add_eq_or_of_lt hlow]
  exact ⟨by omega, (and_two_pow_sub_one_eq_mod _ 7).trans (by omega)⟩

/-- **What the loop accepts**, with the bytes that led to the number so far, is an
encoding. -/
theorem readVarIntLoop_canonical {width m n : ℕ} {is rest : List UInt8} (hwidth : 7 ≤ width)
    (h : readVarIntLoop (2 ^ width - 1) m is = .ok (n, rest)) :
    n ≤ 2 ^ width - 1 ∧ varIntHigh m ++ is = writeVarInt n ++ rest := by
  induction is generalizing m with
  | nil => cases h
  | cons b is ih =>
    obtain ⟨hhigh, hlow⟩ := varIntStep m b
    have hb := varIntByte_eq b
    rw [readVarIntLoop] at h
    split at h
    · cases h
    dsimp only at h
    -- the type is as wide as whole bytes of seven bits leave it
    have hle : m <<< 7 ||| (b &&& 0x7f).toNat ≤ 2 ^ width - 1 := by
      have hpow : 2 ^ width = 2 ^ (width - 7) * 2 ^ 7 := by rw [← pow_add, Nat.sub_add_cancel hwidth]
      have hpos := Nat.two_pow_pos (width - 7)
      omega
    split at h
    · next hmark =>
      split at h
      · cases h
      obtain ⟨hn, heq⟩ := ih h
      rw [if_pos hmark, ← hlow] at hb
      rw [varIntHigh_succ, hhigh, hb, append_assoc] at heq
      exact ⟨hn, heq⟩
    · next hmark =>
      obtain ⟨rfl, rfl⟩ := Prod.mk.inj (Except.ok.inj h)
      rw [if_neg hmark, or_zero, ← hlow] at hb
      rw [writeVarInt_eq, hhigh, hb, append_assoc]
      exact ⟨hle, rfl⟩

theorem lawful_readVarInt {width : ℕ} (hwidth : 7 ≤ width) :
    Lawful writeVarInt (readVarInt (2 ^ width - 1)) (· ≤ 2 ^ width - 1) where
  decode := decodes_readVarInt _
  canonical _ _ _ h := readVarIntLoop_canonical hwidth h

/-- A narrower type reads the same, or throws. -/
theorem readVarIntLoop_narrow {max max' m : ℕ} {is : List UInt8} {r : ℕ × List UInt8}
    (h : readVarIntLoop max' m is = .ok r) :
    readVarIntLoop max m is = .ok r ∨ readVarIntLoop max m is = .error .varIntTooLarge := by
  induction is generalizing m with
  | nil => cases h
  | cons b is ih =>
    rw [readVarIntLoop] at h ⊢
    split at h
    · cases h
    split
    · exact .inr rfl
    dsimp only at h ⊢
    split at h
    · split at h
      · cases h
      rw [if_pos ‹_›]
      split
      · exact .inr rfl
      · exact ih h
    · rw [if_neg ‹_›]
      exact .inl h

/-! ## Both modes -/

inductive VarIntMode where
  | default
  | nonnegativeSigned

/-- How many bits of an integer of `width` bits hold a number that is not negative. -/
def VarIntMode.bits (width : ℕ) : VarIntMode → ℕ
  | default => width
  | nonnegativeSigned => width - 1

/-- `WriteVarInt` of a signed integer: a negative one is at most `0x7f`. -/
def writeVarIntSigned (n : ℤ) : List UInt8 :=
  if n < 0 then [UInt8.ofNat (n % 128).toNat] else writeVarInt n.toNat

/-- **Integers of variable length have one encoding**: both formats read what they write and
nothing else, and a number that the type does not hold is not read. -/
theorem varInts_canonical (rangeCheck : Bool) (mode : VarIntMode) (width : ℕ) (hwidth : 8 ≤ width) :
    Lawful writeCompactSize (readCompactSize rangeCheck)
        (fun n => n < 2 ^ 64 ∧ (rangeCheck = true → n ≤ maxSize)) ∧
      Lawful writeVarInt (readVarInt (2 ^ mode.bits width - 1)) (· ≤ 2 ^ mode.bits width - 1) ∧
      (∀ m n, m < 2 ^ 64 → n < 2 ^ 64 → writeCompactSize m <+: writeCompactSize n → m = n) ∧
      (∀ m n, writeVarInt m <+: writeVarInt n → m = n) ∧
      ∀ max bytes n rest, readVarInt max bytes = .ok (n, rest) → 2 ^ mode.bits width - 1 < n →
        readVarInt (2 ^ mode.bits width - 1) bytes = .error .varIntTooLarge := by
  have hvar := @lawful_readVarInt (mode.bits width) (by
    cases mode <;> rw [VarIntMode.bits] <;> omega)
  refine ⟨lawful_readCompactSize rangeCheck, hvar, ?_, ?_, ?_⟩
  · rintro m n hm hn ⟨t, ht⟩
    have hsize := lawful_readCompactSize false
    exact (hsize.append_injective (s := []) ⟨hm, by simp⟩ ⟨hn, by simp⟩ (by simpa using ht)).1
  · rintro m n ⟨t, ht⟩
    have hread := decodes_readVarInt (m + n) m (by omega) t
    rw [ht, ← append_nil (writeVarInt n), decodes_readVarInt _ _ (by omega)] at hread
    exact (Prod.mk.inj (Except.ok.inj hread)).1.symm
  · intro max bytes n rest hread hlt
    rcases readVarIntLoop_narrow hread with hsame | herror
    · exact absurd (hvar.canonical bytes n rest hsame).1 (not_le.2 hlt)
    · exact herror

theorem varInts_canonical_int : 8 ≤ 32 ∧
    Lawful writeVarInt (readVarInt (2 ^ 31 - 1)) (· ≤ 2 ^ 31 - 1) :=
  ⟨by decide, (varInts_canonical true .nonnegativeSigned 32 (by decide)).2.1⟩

/-- Not every number is read back: the range check is on unless a caller turns it off, and
a negative number is written as a byte of another one. -/
theorem varInts_refused :
    readCompactSize true (writeCompactSize (maxSize + 1)) = .error .sizeTooLarge ∧
      readVarInt (2 ^ 31 - 1) (writeVarIntSigned (-1)) = .ok (127, []) := by
  decide +kernel

end Quarlcoin.Serialize
