import Quarlcoin.Arith.Model
import Quarlcoin.Common.Codec
/-!
# Serialization

`serialize.h`: integers, byte strings and vectors on a stream. Reading throws
`std::ios_base::failure`, here a `ReadError`. That memory is allocated in
batches while a vector is read is not modelled.
-/

namespace Quarlcoin.Serialize

open Arith Codec UInt32 UInt64 BitVec List

/-- The failures of reading that the modelled formats know. -/
inductive ReadError where
  /-- "DataStream::read(): end of data" -/
  | endOfData
  /-- "non-canonical ReadCompactSize()" -/
  | nonCanonicalCompactSize
  /-- "ReadCompactSize(): size too large" -/
  | sizeTooLarge
  /-- "CompactSize exceeds limit of type" -/
  | compactSizeExceedsType
  /-- "Superfluous witness record" -/
  | superfluousWitness
  /-- "Unknown transaction optional data" -/
  | unknownOptionalData
  /-- "differential value overflow" -/
  | differentialOverflow
  /-- "indexes overflowed 16 bits" -/
  | indexesOverflowed
  /-- "ReadVarInt(): size too large" -/
  | varIntTooLarge
  deriving DecidableEq

abbrev Stream (α : Type) : Type := Parser ReadError α

def maxSize : ℕ := 0x02000000

/-- `ser_readdata8` and its kin: an integer of `n` bytes. -/
def readData (n : ℕ) : Stream ℕ := readLE .endOfData n

/-! ## Compact sizes -/

def writeCompactSize (nSize : ℕ) : List UInt8 :=
  if nSize < 253 then leBytes 1 nSize
  else if nSize ≤ 0xffff then leBytes 1 253 ++ leBytes 2 nSize
  else if nSize ≤ 0xffffffff then leBytes 1 254 ++ leBytes 4 nSize
  else leBytes 1 255 ++ leBytes 8 nSize

/-- One of the longer forms of a compact size, which a shorter one could not
have written. -/
def readCanonical (n least : ℕ) : Stream ℕ := do
  let nSizeRet ← readData n
  if nSizeRet < least then throw .nonCanonicalCompactSize else pure nSizeRet

/-- The part of `ReadCompactSize` behind the first byte. -/
def readCompactTail (chSize : ℕ) : Stream ℕ :=
  if chSize < 253 then pure chSize
  else if chSize = 253 then readCanonical 2 253
  else if chSize = 254 then readCanonical 4 0x10000
  else readCanonical 8 0x100000000

def readCompactSize (rangeCheck : Bool) : Stream ℕ := do
  let nSizeRet ← readData 1 >>= readCompactTail
  if rangeCheck ∧ nSizeRet > maxSize then throw .sizeTooLarge else pure nSizeRet

/-! ## Vectors and byte strings -/

section

variable {α : Type}

def serVector (ser : α → List UInt8) (v : List α) : List UInt8 :=
  writeCompactSize v.length ++ v.flatMap ser

def unserVector (unser : Stream α) : Stream (List α) := do
  let size ← readCompactSize true
  times unser size

end

def serBytes (v : List UInt8) : List UInt8 := writeCompactSize v.length ++ v

def unserBytes : Stream (List UInt8) := do
  let nSize ← readCompactSize true
  takeBytes .endOfData nSize

/-! ## Integers -/

def serUInt8 (v : UInt8) : List UInt8 := leBytes 1 v.toNat

def unserUInt8 : Stream UInt8 := UInt8.ofNat <$> readData 1

def serUInt32 (v : UInt32) : List UInt8 := leBytes 4 v.toNat

def unserUInt32 : Stream UInt32 := ofNat <$> readData 4

def serUInt64 (v : UInt64) : List UInt8 := leBytes 8 v.toNat

def unserUInt64 : Stream UInt64 := ofNat <$> readData 8

def serInt32 (v : Int32) : List UInt8 := leBytes 4 v.toUInt32.toNat

def unserInt32 : Stream Int32 := (fun n => (UInt32.ofNat n).toInt32) <$> readData 4

def serInt64 (v : Int64) : List UInt8 := leBytes 8 v.toUInt64.toNat

def unserInt64 : Stream Int64 := (fun n => (UInt64.ofNat n).toInt64) <$> readData 8

def serUint256 (v : Uint256) : List UInt8 := leBytes 32 v.toNat

def unserUint256 : Stream Uint256 := BitVec.ofNat 256 <$> readData 32

/-! ## The formats are lawful -/

theorem lawful_readData (n : ℕ) : Lawful (leBytes n) (readData n) (· < 256 ^ n) :=
  lawful_readLE ReadError.endOfData n

theorem lawful_readCanonical (n least : ℕ) :
    Lawful (leBytes n) (readCanonical n least) (fun v => v < 256 ^ n ∧ least ≤ v) :=
  (lawful_readData n).guard _ (fun v => by omega)

variable (nSize : ℕ)

/-- The first byte of a compact size. -/
def compactTag : ℕ :=
  if nSize < 253 then nSize else if nSize ≤ 0xffff then 253 else if nSize ≤ 0xffffffff then 254
  else 255

def compactTail : List UInt8 :=
  if nSize < 253 then [] else if nSize ≤ 0xffff then leBytes 2 nSize
  else if nSize ≤ 0xffffffff then leBytes 4 nSize else leBytes 8 nSize

theorem writeCompactSize_eq :
    writeCompactSize nSize = leBytes 1 (compactTag nSize) ++ compactTail nSize := by
  unfold writeCompactSize compactTag compactTail
  split
  · rw [append_nil]
  · split
    · rfl
    · split <;> rfl

theorem lawful_readCompactTail {chSize : ℕ} (h : chSize < 256) :
    Lawful compactTail (readCompactTail chSize) fun n => n < 2 ^ 64 ∧ compactTag n = chSize := by
  unfold readCompactTail
  split
  · refine (Lawful.pure chSize).congr (fun n => ?_) (fun n hn => ?_)
    · unfold compactTag
      split <;> [omega; split <;> [omega; split <;> omega]]
    · rw [compactTail, if_pos (by omega)]
  split
  · refine (lawful_readCanonical 2 253).congr (fun n => ?_) (fun n hn => ?_)
    · unfold compactTag
      split <;> [omega; split <;> [omega; split <;> omega]]
    · rw [compactTail, if_neg (by omega), if_pos (by omega)]
  split
  · refine (lawful_readCanonical 4 0x10000).congr (fun n => ?_) (fun n hn => ?_)
    · unfold compactTag
      split <;> [omega; split <;> [omega; split <;> omega]]
    · rw [compactTail, if_neg (by omega), if_neg (by omega), if_pos (by omega)]
  · refine (lawful_readCanonical 8 0x100000000).congr (fun n => ?_) (fun n hn => ?_)
    · unfold compactTag
      split <;> [omega; split <;> [omega; split <;> omega]]
    · rw [compactTail, if_neg (by omega), if_neg (by omega), if_neg (by omega)]

theorem compactTag_lt (n : ℕ) : compactTag n < 256 := by
  unfold compactTag
  split <;> [omega; split <;> [omega; split <;> omega]]

/-- **A compact size has one encoding.** -/
theorem lawful_readCompactSize (rangeCheck : Bool) :
    Lawful writeCompactSize (readCompactSize rangeCheck)
      fun n => n < 2 ^ 64 ∧ (rangeCheck = true → n ≤ maxSize) := by
  have hraw : Lawful writeCompactSize (readData 1 >>= readCompactTail) (· < 2 ^ 64) :=
    ((lawful_readData 1).field compactTag fun chSize h => lawful_readCompactTail h).congr
      (fun n => ⟨fun hn => ⟨compactTag_lt n, hn⟩, fun hn => hn.2⟩) (fun n _ => writeCompactSize_eq n)
  refine hraw.guard .sizeTooLarge fun n => ?_
  refine and_congr_right fun _ => ⟨fun hn hbad => ?_, fun hn hcheck => ?_⟩
  · exact absurd (hn hbad.1) (not_le.2 hbad.2)
  · exact not_lt.1 fun hlt => hn ⟨hcheck, hlt⟩

/-! ### Vectors -/

/-- **A vector of lawful items**, if there are not too many. -/
theorem lawful_unserVector {α : Type} {ser : α → List UInt8} {unser : Stream α} {ok : α → Prop}
    (h : Lawful ser unser ok) :
    Lawful (serVector ser) (unserVector unser) fun v => v.length ≤ maxSize ∧ ∀ a ∈ v, ok a := by
  refine ((lawful_readCompactSize true).field length fun n _ => h.times n).congr
    (fun v => ?_) (fun v _ => rfl)
  refine and_congr_left fun _ => ⟨fun hv => ⟨?_, fun _ => hv⟩, fun hv => hv.2 rfl⟩
  exact hv.trans_lt (by decide)

theorem lawful_unserBytes : Lawful serBytes unserBytes fun v => v.length ≤ maxSize := by
  have hrest : ∀ n, Lawful id (takeBytes ReadError.endOfData n) fun v => True ∧ v.length = n :=
    fun n => (lawful_takeBytes _ n).congr (fun v => iff_of_eq (true_and _)) (fun v _ => rfl)
  refine ((lawful_readCompactSize true).field length fun n _ => hrest n).congr
    (fun v => ?_) (fun v _ => rfl)
  refine ⟨fun hv => ⟨⟨?_, fun _ => hv⟩, trivial⟩, fun hv => hv.1.2 rfl⟩
  exact hv.trans_lt (by decide)

/-- **A vector told from its bytes**, however long it is: `ReadCompactSize`
without its range check takes any size. -/
theorem separated_serVector {α : Type} {ser : α → List UInt8} {ok : α → Prop}
    (h : Separated ser ok) :
    Separated (serVector ser) fun v => v.length < 2 ^ 64 ∧ ∀ a ∈ v, ok a := by
  rintro v w ⟨hvlen, hv⟩ ⟨hwlen, hw⟩ r s happ
  simp only [serVector, List.append_assoc] at happ
  obtain ⟨hlen, hitems⟩ := (lawful_readCompactSize false).append_injective ⟨hvlen, by simp⟩
    ⟨hwlen, by simp⟩ happ
  exact h.flatMap hv hw hlen hitems

theorem separated_serBytes : Separated serBytes fun v => v.length < 2 ^ 64 := by
  intro v w hv hw r s happ
  simp only [serBytes, List.append_assoc] at happ
  obtain ⟨hlen, hitems⟩ := (lawful_readCompactSize false).append_injective ⟨hv, by simp⟩
    ⟨hw, by simp⟩ happ
  exact List.append_inj hitems hlen

/-! ### Integers -/

theorem lawful_unserUInt8 : Lawful serUInt8 unserUInt8 fun _ => True :=
  (lawful_readData 1).iso (fun v _ => ⟨v.toNat_lt, UInt8.ofNat_toNat⟩)
    (fun _ h => ⟨trivial, UInt8.toNat_ofNat_of_lt' h⟩)

theorem lawful_unserUInt32 : Lawful serUInt32 unserUInt32 fun _ => True :=
  (lawful_readData 4).iso (fun v _ => ⟨v.toNat_lt, UInt32.ofNat_toNat⟩)
    (fun _ h => ⟨trivial, toNat_ofNat_of_lt' h⟩)

theorem lawful_unserUInt64 : Lawful serUInt64 unserUInt64 fun _ => True :=
  (lawful_readData 8).iso (fun v _ => ⟨v.toNat_lt, UInt64.ofNat_toNat⟩)
    (fun _ h => ⟨trivial, toNat_ofNat_of_lt' h⟩)

theorem lawful_unserInt32 : Lawful serInt32 unserInt32 fun _ => True :=
  (lawful_readData 4).iso
    (fun v _ => ⟨v.toUInt32.toNat_lt, by rw [UInt32.ofNat_toNat, Int32.toInt32_toUInt32]⟩)
    (fun _ h => ⟨trivial, by rw [toUInt32_toInt32, toNat_ofNat_of_lt' h]⟩)

theorem lawful_unserInt64 : Lawful serInt64 unserInt64 fun _ => True :=
  (lawful_readData 8).iso
    (fun v _ => ⟨v.toUInt64.toNat_lt, by rw [UInt64.ofNat_toNat, Int64.toInt64_toUInt64]⟩)
    (fun _ h => ⟨trivial, by rw [toUInt64_toInt64, toNat_ofNat_of_lt' h]⟩)

theorem lawful_unserUint256 : Lawful serUint256 unserUint256 fun _ => True :=
  (lawful_readData 32).iso
    (fun v _ => ⟨v.isLt, by rw [ofNat_toNat, setWidth_eq]⟩)
    (fun _ h => ⟨trivial, by rw [BitVec.toNat_ofNat]; exact Nat.mod_eq_of_lt h⟩)

end Quarlcoin.Serialize
