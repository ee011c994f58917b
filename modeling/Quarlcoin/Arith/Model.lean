import Mathlib.Data.Nat.Notation
/-!
# Arithmetic — the limb model

`base_uint<BITS>` of `arith_uint256.h` and `arith_uint256.cpp`: an unsigned integer of `w`
limbs of 32 bits, least significant first, and its operators as loops over the limbs.
-/

namespace Quarlcoin.Arith

open UInt32 List

/-- `base_uint<BITS>`, with `w = BITS / 32` limbs. -/
structure BaseUint (w : ℕ) where
  /-- The limbs, least significant first. -/
  pn : List UInt32
  length_pn : pn.length = w
  deriving DecidableEq

/-- `arith_uint256`: eight limbs. -/
abbrev ArithUint256 : Type := BaseUint 8

namespace BaseUint

variable {w : ℕ} (a : BaseUint w)

def limb (i : ℕ) : UInt32 := a.pn.getD i 0

def zero : BaseUint w := ⟨replicate w 0, length_replicate⟩

def ofUInt64 (b : UInt64) : BaseUint (w + 2) :=
  ⟨b.toUInt32 :: (b >>> 32).toUInt32 :: replicate w 0, by simp⟩

def complement : BaseUint w :=
  ⟨a.pn.map (~~~ ·), by simp [a.length_pn]⟩

def addLoop (carry : UInt64) : List UInt32 → List UInt32 → List UInt32
  | x :: xs, y :: ys =>
    let n := carry + x.toUInt64 + y.toUInt64
    (n &&& 0xffffffff).toUInt32 :: addLoop (n >>> 32) xs ys
  | _, _ => []

theorem length_addLoop {xs ys : List UInt32} (h : xs.length = ys.length) {carry : UInt64} :
    (addLoop carry xs ys).length = xs.length := by
  induction xs generalizing ys carry with
  | nil => simp [addLoop]
  | cons x xs ih =>
    cases ys with
    | nil => simp at h
    | cons y ys => simp [addLoop, ih (by simpa using h)]

def add (a b : BaseUint w) : BaseUint w :=
  ⟨addLoop 0 a.pn b.pn, by rw [length_addLoop (by rw [a.length_pn, b.length_pn]), a.length_pn]⟩

def incLoop : List UInt32 → List UInt32
  | [] => []
  | x :: xs => if x + 1 = 0 then (x + 1) :: incLoop xs else (x + 1) :: xs

variable (xs : List UInt32)

theorem length_incLoop : (incLoop xs).length = xs.length := by
  induction xs with
  | nil => rfl
  | cons x xs ih => unfold incLoop; split <;> simp [ih]

def inc : BaseUint w := ⟨incLoop a.pn, by rw [length_incLoop, a.length_pn]⟩

def decLoop : List UInt32 → List UInt32
  | [] => []
  | x :: xs => if x - 1 = 0xffffffff then (x - 1) :: decLoop xs else (x - 1) :: xs

theorem length_decLoop : (decLoop xs).length = xs.length := by
  induction xs with
  | nil => rfl
  | cons x xs ih => unfold decLoop; split <;> simp [ih]

def dec : BaseUint w := ⟨decLoop a.pn, by rw [length_decLoop, a.length_pn]⟩

/-- The unary `operator-`: the complement, plus one. -/
def neg : BaseUint w := a.complement.inc

/-- `operator-=`, which adds the negation. -/
def sub (a b : BaseUint w) : BaseUint w := a.add b.neg

def mulLoop (carry : UInt64) (b32 : UInt32) : List UInt32 → List UInt32
  | [] => []
  | x :: xs =>
    let n := carry + b32.toUInt64 * x.toUInt64
    (n &&& 0xffffffff).toUInt32 :: mulLoop (n >>> 32) b32 xs

theorem length_mulLoop {carry : UInt64} {b32 : UInt32} (xs : List UInt32) :
    (mulLoop carry b32 xs).length = xs.length := by
  induction xs generalizing carry with
  | nil => rfl
  | cons x xs ih => simp [mulLoop, ih]

/-- `operator*=(uint32_t)`, the overload a `uint64_t` factor is narrowed to as well. -/
def mulUInt32 (b32 : UInt32) : BaseUint w :=
  ⟨mulLoop 0 b32 a.pn, by rw [length_mulLoop, a.length_pn]⟩

/-- A row of `operator*=` by another number: its multiple of `b` is added from its own position
on. -/
def mulAddLoop (carry : UInt64) (x : UInt32) : List UInt32 → List UInt32 → List UInt32
  | a :: as, y :: ys =>
    let n := carry + a.toUInt64 + x.toUInt64 * y.toUInt64
    (n &&& 0xffffffff).toUInt32 :: mulAddLoop (n >>> 32) x as ys
  | as, _ => as

theorem length_mulAddLoop (carry : UInt64) (x : UInt32) (as ys : List UInt32) :
    (mulAddLoop carry x as ys).length = as.length := by
  induction as generalizing carry ys with
  | nil => simp [mulAddLoop]
  | cons a as ih => cases ys <;> simp [mulAddLoop, ih]

def mulRows (b : List UInt32) : List UInt32 → List UInt32 → List UInt32
  | x :: xs, a :: as =>
    match mulAddLoop 0 x (a :: as) b with
    | low :: rest => low :: mulRows b xs rest
    | [] => []
  | _, as => as

theorem length_mulRows (b xs as : List UInt32) : (mulRows b xs as).length = as.length := by
  induction xs generalizing as with
  | nil => cases as <;> rfl
  | cons x xs ih =>
    cases as with
    | nil => rfl
    | cons a as =>
      have hlen := length_mulAddLoop 0 x (a :: as) b
      rw [mulRows]
      split
      · rename_i heq
        rw [heq] at hlen
        simpa [ih] using hlen
      · rename_i heq
        rw [heq] at hlen
        exact hlen

def mul (a b : BaseUint w) : BaseUint w :=
  ⟨mulRows b.pn a.pn (replicate w 0), by rw [length_mulRows, length_replicate]⟩

variable (pn : List UInt32)

def orAt (i : ℕ) (x : UInt32) : List UInt32 := pn.set i (pn.getD i 0 ||| x)

@[simp] theorem length_orAt (i : ℕ) (x : UInt32) : (orAt pn i x).length = pn.length := by
  simp [orAt]

variable (k shift : ℕ) (pn : List UInt32)

/-- The body of the loop of `operator<<=`, for `k` whole limbs and `shift` bits. -/
def shlBody (i : ℕ) : List UInt32 :=
  let pn := if i + k + 1 < w ∧ shift ≠ 0 then
    orAt pn (i + k + 1) (a.limb i >>> ofNat (32 - shift)) else pn
  if i + k < w then orAt pn (i + k) (a.limb i <<< ofNat shift) else pn

theorem length_shlBody (i : ℕ) : (shlBody a k shift pn i).length = pn.length := by
  unfold shlBody; dsimp only; split <;> split <;> simp

def shl (shift : ℕ) : BaseUint w where
  pn := (range w).foldl (shlBody a (shift / 32) (shift % 32)) (replicate w 0)
  length_pn := by
    refine foldlRecOn (motive := fun pn : List UInt32 => pn.length = w) _ _ (by simp) ?_
    intro pn hpn i _
    rw [length_shlBody, hpn]

def shrBody (i : ℕ) : List UInt32 :=
  let pn := if k + 1 ≤ i ∧ shift ≠ 0 then
    orAt pn (i - k - 1) (a.limb i <<< ofNat (32 - shift)) else pn
  if k ≤ i then orAt pn (i - k) (a.limb i >>> ofNat shift) else pn

theorem length_shrBody (i : ℕ) : (shrBody a k shift pn i).length = pn.length := by
  unfold shrBody; dsimp only; split <;> split <;> simp

def shr (shift : ℕ) : BaseUint w where
  pn := (range w).foldl (shrBody a (shift / 32) (shift % 32)) (replicate w 0)
  length_pn := by
    refine foldlRecOn (motive := fun pn : List UInt32 => pn.length = w) _ _ (by simp) ?_
    intro pn hpn i _
    rw [length_shrBody, hpn]

def compareLoop : List UInt32 → List UInt32 → Ordering
  | x :: xs, y :: ys => if x < y then .lt else if y < x then .gt else compareLoop xs ys
  | _, _ => .eq

/-- `CompareTo`, with `-1`, `0` and `1` as an `Ordering`. -/
def compareTo (a b : BaseUint w) : Ordering := compareLoop a.pn.reverse b.pn.reverse

def lt (a b : BaseUint w) : Bool := a.compareTo b == .lt

def le (a b : BaseUint w) : Bool := a.compareTo b != .gt

/-- `EqualTo(uint64_t)`, which `operator==(uint64_t)` calls. -/
def equalTo (b : UInt64) : Bool :=
  (a.pn.drop 2).all (· == 0) && a.limb 1 == (b >>> 32).toUInt32 &&
    a.limb 0 == (b &&& 0xffffffff).toUInt32

def limbBits (x : UInt32) : ℕ → ℕ
  | 0 => 1
  | nbits + 1 =>
    if x &&& ((1 : UInt32) <<< ofNat (nbits + 1)) ≠ 0 then nbits + 2 else limbBits x nbits

def bitsLoop (a : BaseUint w) : ℕ → ℕ
  | 0 => 0
  | pos + 1 => if a.limb pos ≠ 0 then 32 * pos + limbBits (a.limb pos) 31 else bitsLoop a pos

def bits : ℕ := a.bitsLoop w

def getLow64 : UInt64 := (a.limb 0).toUInt64 ||| ((a.limb 1).toUInt64 <<< 32)

def setBit (shift : ℕ) : BaseUint w :=
  ⟨orAt a.pn (shift / 32) ((1 : UInt32) <<< ofNat (shift % 32)), by
    rw [length_orAt, a.length_pn]⟩

def divLoop : ℕ → BaseUint w → BaseUint w → BaseUint w → BaseUint w
  | 0, _, _, quot => quot
  | shift + 1, num, div, quot =>
    if div.le num then divLoop shift (num.sub div) (div.shr 1) (quot.setBit shift)
    else divLoop shift num (div.shr 1) quot

/-- `operator/=`; `none` is the exception "Division by zero". -/
def div (a b : BaseUint w) : Option (BaseUint w) :=
  if b.bits = 0 then none
  else if a.bits < b.bits then some zero
  else some (divLoop (a.bits - b.bits + 1) a (b.shl (a.bits - b.bits)) zero)

end BaseUint

/-! ## Blobs -/

/-- `uint256`: a blob of 32 bytes, as the number its bytes spell in little
endian. -/
abbrev Uint256 : Type := BitVec 256

instance : LawfulBEq Uint256 := inferInstance

/-- `UintToArith256`: each limb is read in little endian. -/
def uintToArith256 (a : Uint256) : ArithUint256 :=
  ⟨(range 8).map fun x => ofBitVec (a.extractLsb' (32 * x) 32), by simp⟩

/-! ## The compact format -/

/-- What `SetCompact` writes: the value and the two flags. -/
structure Compact where
  value : ArithUint256
  fNegative : Bool
  fOverflow : Bool

def setCompact (nCompact : UInt32) : Compact :=
  let nSize := (nCompact >>> 24).toNat
  let nWord := nCompact &&& 0x007fffff
  let nWord := if nSize ≤ 3 then nWord >>> ofNat (8 * (3 - nSize)) else nWord
  { value :=
      if nSize ≤ 3 then BaseUint.ofUInt64 nWord.toUInt64
      else (BaseUint.ofUInt64 nWord.toUInt64).shl (8 * (nSize - 3))
    fNegative := nWord != 0 && (nCompact &&& 0x00800000) != 0
    fOverflow := nWord != 0 && (decide (34 < nSize) ||
      (decide (0xff < nWord) && decide (33 < nSize)) ||
      (decide (0xffff < nWord) && decide (32 < nSize))) }

/-- `CeilDiv` of `util/overflow.h`. -/
def ceilDiv (dividend divisor : ℕ) : ℕ :=
  dividend / divisor + (if dividend % divisor ≠ 0 then 1 else 0)

variable (a : ArithUint256)

def compactSize : ℕ := ceilDiv a.bits 8

/-- The three leading bytes of the number, before the sign bit is cleared. -/
def compactWord : UInt32 :=
  if compactSize a ≤ 3 then (a.getLow64 <<< UInt64.ofNat (8 * (3 - compactSize a))).toUInt32
  else (a.shr (8 * (compactSize a - 3))).getLow64.toUInt32

def getCompact (fNegative : Bool) : UInt32 :=
  let sign := compactWord a &&& 0x00800000 != 0
  let nCompact := if sign then compactWord a >>> 8 else compactWord a
  let nSize := if sign then compactSize a + 1 else compactSize a
  let nCompact := nCompact ||| (ofNat nSize <<< 24)
  nCompact ||| (if fNegative && nCompact &&& 0x007fffff != 0 then 0x00800000 else 0)

end Quarlcoin.Arith
