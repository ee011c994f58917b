import Quarlcoin.Arith.Compact
import Quarlcoin.Arith.Division
import Quarlcoin.Chain.Model
/-!
# The chain of headers — claimed work

`GetBitsProof` computes `2 ^ 256 / (target + 1)` without ever holding `2 ^ 256`, and claims
of work add up modulo 256 bits.
-/

namespace Quarlcoin

open Arith BaseUint Nat

/-- A target that is not flagged leaves the top value free, so that adding
one to it does not wrap. -/
theorem setCompact_value_succ_lt (c : UInt32) : (setCompact c).value.toNat + 1 < 2 ^ 256 := by
  have heq := toNat_setCompact c
  split at heq
  · have : c.toNat % 2 ^ 23 / 2 ^ (8 * (3 - c.toNat / 2 ^ 24)) ≤ c.toNat % 2 ^ 23 :=
      div_le_self _ _
    omega
  · -- the value is a multiple of a byte
    have hmul : 2 ∣ (setCompact c).value.toNat := by
      rw [heq, dvd_mod_iff (dvd_pow_self 2 (by omega))]
      exact Dvd.dvd.mul_left (dvd_pow_self 2 (by omega)) _
    omega

/-- **The work of a target**, when the bits stand for one. -/
theorem toNat_getBitsProof (bits : UInt32) : (getBitsProof bits).toNat =
      if (setCompact bits).fNegative || (setCompact bits).fOverflow ||
          (setCompact bits).value.toNat = 0 then 0
      else 2 ^ 256 / ((setCompact bits).value.toNat + 1) := by
  have hsucc := setCompact_value_succ_lt bits
  have hzero : (setCompact bits).value.equalTo 0 = decide ((setCompact bits).value.toNat = 0) := by
    rw [Bool.eq_iff_iff, equalTo_iff, decide_eq_true_iff]
    rfl
  unfold getBitsProof
  dsimp only
  rw [hzero]
  split_ifs with hflags
  · exact toNat_zero
  have hne : (setCompact bits).value.toNat ≠ 0 := by
    intro h
    simp [h] at hflags
  have hadd : ((setCompact bits).value.add (ofUInt64 1)).toNat =
      (setCompact bits).value.toNat + 1 := by
    rw [toNat_add]
    exact mod_eq_of_lt hsucc
  obtain ⟨q, hq, hqval⟩ := toNat_div
    (by rw [hadd]; omega)
  rw [hq, Option.getD_some, toNat_add, hqval, hadd, toNat_complement, toNat_ofUInt64]
  generalize (setCompact bits).value.toNat = v at hsucc hne
  -- the quotient of the complement is one short of the quotient wanted
  have hquot : 2 ^ 256 / (v + 1) = (2 ^ (32 * 8) - 1 - v) / (v + 1) + 1 := by
    rw [← add_div_right _ (by omega)]
    congr 1
    omega
  have hle : (2 ^ (32 * 8) - 1 - v) / (v + 1) ≤ 2 ^ (32 * 8) - 1 - v := div_le_self _ _
  rw [hquot]
  exact mod_eq_of_lt (by rw [show (1 : UInt64).toNat = 1 from rfl]; omega)

/-- **The limbs refine the integers modulo `2 ^ 256`**, the division throws exactly on zero, and
`GetBitsProof` is the floor of a division. -/
theorem arithUint256_refines (a b : ArithUint256) (b32 bits : UInt32) (shift : ℕ) :
    (a.add b).toNat = (a.toNat + b.toNat) % 2 ^ 256 ∧
    ((a.sub b).toNat : ℤ) = ((a.toNat : ℤ) - b.toNat) % 2 ^ 256 ∧
    (a.neg.toNat : ℤ) = -(a.toNat : ℤ) % 2 ^ 256 ∧ a.inc.toNat = (a.toNat + 1) % 2 ^ 256 ∧
    (a.dec.toNat : ℤ) = ((a.toNat : ℤ) - 1) % 2 ^ 256 ∧
    (a.mulUInt32 b32).toNat = b32.toNat * a.toNat % 2 ^ 256 ∧
    (a.mul b).toNat = a.toNat * b.toNat % 2 ^ 256 ∧
    (a.shl shift).toNat = a.toNat * 2 ^ shift % 2 ^ 256 ∧
    (a.shr shift).toNat = a.toNat / 2 ^ shift ∧
    a.compareTo b = compare a.toNat b.toNat ∧ (a = b ↔ a.toNat = b.toNat) ∧
    (if b.toNat = 0 then a.div b = none else ∃ q, a.div b = some q ∧ q.toNat = a.toNat / b.toNat) ∧
    (getBitsProof bits).toNat = if (setCompact bits).fNegative || (setCompact bits).fOverflow ||
          (setCompact bits).value.toNat = 0 then 0
      else 2 ^ 256 / ((setCompact bits).value.toNat + 1) := by
  refine ⟨a.toNat_add b, a.toNat_sub_emod b, a.toNat_neg, a.toNat_inc, a.toNat_dec,
    a.toNat_mulUInt32 b32, a.toNat_mul b, a.toNat_shl shift, a.toNat_shr shift, a.compareTo_eq b,
    toNat_inj.symm, ?_, toNat_getBitsProof bits⟩
  split_ifs with hzero
  · rw [div, bits_eq, hzero, if_pos size_zero]
  · exact toNat_div (pos_of_ne_zero ‹_›)

/-! ## Adding work up -/

/-- The work of a chain on top of `start`, as the accumulators hold it. -/
def chainWork (start : ArithUint256) (headers : List BlockHeader) : ArithUint256 :=
  headers.foldl (fun work header => work.add (getBlockProof header)) start

/-- The work of a chain, without a bound. -/
def claimedWork (start : ArithUint256) (headers : List BlockHeader) : ℕ :=
  start.toNat + (headers.map fun header => (getBlockProof header).toNat).sum

section

variable (start : ArithUint256)
include start

theorem chainWork_concat (hs : List BlockHeader) (h : BlockHeader) :
    chainWork start (hs ++ [h]) = (chainWork start hs).add (getBlockProof h) := by
  simp [chainWork]

theorem claimedWork_append (hs hs' : List BlockHeader) : claimedWork start (hs ++ hs') =
      claimedWork start hs + (hs'.map fun header => (getBlockProof header).toNat).sum := by
  simp [claimedWork, add_assoc]

theorem claimedWork_le_append (hs hs' : List BlockHeader) :
    claimedWork start hs ≤ claimedWork start (hs ++ hs') := by
  rw [claimedWork_append]
  exact le_add_right _ _

/-- **Work adds up modulo 256 bits.** -/
theorem toNat_chainWork (hs : List BlockHeader) :
    (chainWork start hs).toNat = claimedWork start hs % 2 ^ 256 := by
  induction hs using List.reverseRecOn with
  | nil => exact (mod_eq_of_lt start.toNat_lt).symm
  | append_singleton hs h ih =>
    rw [chainWork_concat, toNat_add, ih, claimedWork_append]
    simp

theorem toNat_chainWork_le (hs : List BlockHeader) :
    (chainWork start hs).toNat ≤ claimedWork start hs := by
  rw [toNat_chainWork]
  exact mod_le _ _

end

end Quarlcoin
