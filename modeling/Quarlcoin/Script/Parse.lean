import Quarlcoin.Common.Codec
import Quarlcoin.Primitives.Transaction
/-!
# Reading and writing a script

`GetScriptOp` of `script/script.cpp`, `CScript::GetSigOpCount`, `CScriptNum::serialize` and
the operators that put a number or data at the end of a script. A script is shorter than `2
^ 32` bytes, so that the cast of the bytes left to `unsigned int` loses nothing.
-/

namespace Quarlcoin.Script

open List Nat UInt8

def opPushData1 : UInt8 := 0x4c

def opPushData2 : UInt8 := 0x4d

def opPushData4 : UInt8 := 0x4e

def op1 : UInt8 := 0x51

def op16 : UInt8 := 0x60

def opCheckSig : UInt8 := 0xac

def opCheckSigVerify : UInt8 := 0xad

def opCheckMultisig : UInt8 := 0xae

def opCheckMultisigVerify : UInt8 := 0xaf

def opInvalidOpcode : UInt8 := 0xff

def maxPubkeysPerMultisig : ℕ := 20

/-- `ReadLE16` and its kin, behind the check that the bytes are there. -/
def readSize (n : ℕ) (pc : Script) : Option (ℕ × Script) :=
  if pc.length < n then none else some (Codec.leValue (pc.take n), pc.drop n)

variable (opcode : UInt8)

/-- The size of the data that a push operation announces. -/
def pushSize (pc : Script) : Option (ℕ × Script) :=
  if opcode < opPushData1 then some (opcode.toNat, pc)
  else if opcode = opPushData1 then readSize 1 pc
  else if opcode = opPushData2 then readSize 2 pc
  else readSize 4 pc

/-- `GetScriptOp`: the operation, the data it pushes and the rest of the
script. -/
def getScriptOp : Script → Option (UInt8 × List UInt8 × Script)
  | [] => none
  | opcode :: pc =>
    if opcode ≤ opPushData4 then
      match pushSize opcode pc with
      | none => none
      | some (nSize, pc) =>
        if pc.length < nSize then none else some (opcode, pc.take nSize, pc.drop nSize)
    else some (opcode, [], pc)

def decodeOpN : ℕ := if opcode = 0 then 0 else opcode.toNat - (op1.toNat - 1)

/-- What an operation adds to the count. -/
def sigOps (fAccurate : Bool) (lastOpcode opcode : UInt8) : ℕ :=
  if opcode = opCheckSig ∨ opcode = opCheckSigVerify then 1
  else if opcode = opCheckMultisig ∨ opcode = opCheckMultisigVerify then
    if fAccurate ∧ op1 ≤ lastOpcode ∧ lastOpcode ≤ op16 then decodeOpN lastOpcode
    else maxPubkeysPerMultisig
  else 0

def sigOpLoop (fAccurate : Bool) : ℕ → UInt8 → Script → ℕ → ℕ
  | 0, _, _, n => n
  | fuel + 1, lastOpcode, pc, n =>
    match getScriptOp pc with
    | none => n
    | some (opcode, _, pc) =>
      sigOpLoop fAccurate fuel opcode pc (n + sigOps fAccurate lastOpcode opcode)

/-- `GetSigOpCount`; every operation takes a byte at least. -/
def getSigOpCount (fAccurate : Bool) (script : Script) : ℕ :=
  sigOpLoop fAccurate script.length opInvalidOpcode script 0

/-! ## Writing -/

/-- The bytes of a number up to its last that is not zero, the lowest
first. -/
def magnitudeBytes : ℕ → ℕ → List UInt8
  | 0, _ => []
  | fuel + 1, absvalue =>
    if absvalue = 0 then []
    else ofNat (absvalue % 256) :: magnitudeBytes fuel (absvalue / 256)

/-- `CScriptNum::serialize`: the highest bit is the sign, if need be in a byte of its own. -/
def serializeNum (value : Int64) : List UInt8 :=
  let result := magnitudeBytes 8 value.toInt.natAbs
  match result.getLast? with
  | none => []
  | some back =>
    if back &&& 0x80 ≠ 0 then result ++ [if value < 0 then 0x80 else 0]
    else if value < 0 then result.dropLast ++ [back ||| 0x80]
    else result

def appendDataSize (size : ℕ) : Script :=
  if size < opPushData1.toNat then Codec.leBytes 1 size
  else if size ≤ 0xff then opPushData1 :: Codec.leBytes 1 size
  else if size ≤ 0xffff then opPushData2 :: Codec.leBytes 2 size
  else opPushData4 :: Codec.leBytes 4 size

/-- `operator<<` of bytes. -/
def pushData (data : List UInt8) : Script := appendDataSize data.length ++ data

def pushInt64 (n : Int64) : Script :=
  if n = -1 ∨ (1 ≤ n ∧ n ≤ 16) then [ofInt (n.toInt + (op1.toNat - 1))]
  else if n = 0 then [0]
  else pushData (serializeNum n)

/-! ## Numbers that were written -/

theorem leValue_magnitudeBytes {fuel n : ℕ} (h : n < 256 ^ fuel) :
    Codec.leValue (magnitudeBytes fuel n) = n ∧ (magnitudeBytes fuel n).length ≤ fuel := by
  induction fuel generalizing n with
  | zero =>
    exact ⟨by rw [magnitudeBytes, Codec.leValue]; omega, le_rfl⟩
  | succ fuel ih =>
    rw [magnitudeBytes]
    split_ifs with hzero
    · exact ⟨hzero.symm, zero_le _⟩
    have hdiv : n / 256 < 256 ^ fuel := by
      omega
    obtain ⟨hvalue, hlen⟩ := ih hdiv
    rw [Codec.leValue, hvalue, toNat_ofNat', mod_mod, mod_add_div]
    exact ⟨rfl, succ_le_succ hlen⟩

theorem leValue_append_zero (bs : List UInt8) : Codec.leValue (bs ++ [0]) = Codec.leValue bs := by
  induction bs with
  | nil => rfl
  | cons b bs ih => rw [cons_append, Codec.leValue, Codec.leValue, ih]

/-- The bytes of a number spell it, also where they carry a byte for the sign. -/
theorem leValue_serializeNum {n : ℕ} (h : n < 2 ^ 63) :
    Codec.leValue (serializeNum (Int64.ofNat n)) = n ∧
      (serializeNum (Int64.ofNat n)).length ≤ 9 := by
  have hint : (Int64.ofNat n).toInt = n := Int64.toInt_ofNat_of_lt h
  have hneg : ¬ Int64.ofNat n < 0 := by
    rw [Int64.lt_iff_toInt_lt, hint]
    exact not_lt.2 (Int.natCast_nonneg n)
  obtain ⟨hvalue, hlen⟩ := leValue_magnitudeBytes (show n < 256 ^ 8 by omega)
  rw [serializeNum, hint, Int.natAbs_natCast]
  split
  · rename_i hnone
    rw [getLast?_eq_none_iff.1 hnone] at hvalue
    exact ⟨hvalue, zero_le _⟩
  · split
    · rw [leValue_append_zero, length_append]
      exact ⟨hvalue, succ_le_succ hlen⟩
    · exact ⟨hvalue, hlen.trans (le_succ _)⟩

/-- A number above zero is an operation of its own, or a push of its bytes. -/
theorem pushInt64_ofNat {n : ℕ} (hpos : 0 < n) (h : n < 2 ^ 63) :
    pushInt64 (Int64.ofNat n) = if n ≤ 16 then [ofNat (80 + n)] else
      ofNat (serializeNum (Int64.ofNat n)).length :: serializeNum (Int64.ofNat n) := by
  have hint : (Int64.ofNat n).toInt = n := Int64.toInt_ofNat_of_lt h
  have hsmall : (Int64.ofNat n = -1 ∨ 1 ≤ Int64.ofNat n ∧ Int64.ofNat n ≤ 16) ↔ n ≤ 16 := by
    rw [← Int64.toInt_inj, Int64.le_iff_toInt_le, Int64.le_iff_toInt_le, hint]
    change ((n : ℤ) = -1 ∨ (1 : ℤ) ≤ n ∧ (n : ℤ) ≤ 16) ↔ n ≤ 16
    omega
  have hne : Int64.ofNat n ≠ 0 := by
    intro hzero
    rw [hzero] at hint
    exact hpos.ne (Int.ofNat.inj hint)
  have hlen := (leValue_serializeNum h).2
  rw [pushInt64]
  split
  · rename_i hn
    rw [hsmall] at hn
    rw [if_pos hn, hint]
    refine congrArg (fun b => [ofNat b]) ?_
    change (((n : ℤ) + 80) % 2 ^ 8).toNat = 80 + n
    omega
  · rename_i hn
    rw [if_neg (hsmall.not.1 hn), pushData, appendDataSize, if_pos, Codec.leBytes,
      mod_eq_of_lt (by omega)]
    · rfl
    · exact lt_of_le_of_lt hlen (by decide)

/-- **Numbers that begin scripts can be told apart**: a script begins with one of
them at most. -/
theorem separated_pushInt64 :
    Codec.Separated (fun n => pushInt64 (Int64.ofNat n)) fun n => 0 < n ∧ n < 2 ^ 63 := by
  rintro a b ⟨ha, ha'⟩ ⟨hb, hb'⟩ r s happ
  obtain ⟨hvalue, hlen⟩ := leValue_serializeNum ha'
  obtain ⟨hvalue', hlen'⟩ := leValue_serializeNum hb'
  simp only [pushInt64_ofNat ha ha', pushInt64_ofNat hb hb'] at happ
  -- the first byte says whether data follows, and how much
  have hbyte {m k : ℕ} (hm : m < 256) (hk : k < 256) (heq : ofNat m = ofNat k) :
      m = k := by
    have hnat := congrArg toNat heq
    rwa [toNat_ofNat_of_lt' hm, toNat_ofNat_of_lt' hk] at hnat
  split at happ <;> split at happ <;> obtain ⟨hhead, hrest⟩ := cons.inj happ
  · exact ⟨add_left_cancel (hbyte (by omega) (by omega) hhead), hrest⟩
  · have := hbyte (by omega) (by omega) hhead
    omega
  · have := hbyte (by omega) (by omega) hhead
    omega
  · obtain ⟨hdata, hrest⟩ := append_inj hrest (hbyte (by omega) (by omega) hhead)
    rw [hdata, hvalue'] at hvalue
    exact ⟨hvalue.symm, hrest⟩

end Quarlcoin.Script
