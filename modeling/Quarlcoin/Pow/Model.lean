import Quarlcoin.Params
/-!
# Proof of work — the model

`pow.cpp`: the ASERT target with its intermediates at their own widths, the functions that
hand it out in compact form, and the check of a hash against a claimed target.
-/

namespace Quarlcoin

open Arith

namespace Pow

/-- `GetBlockTime` of a header: its 32-bit time, widened. -/
def getBlockTime (nTime : UInt32) : Int64 := nTime.toUInt64.toInt64

variable (params : Consensus.Params)

def asertBlocks (prevHeight : Int64) : Int64 :=
  prevHeight - params.asertAnchor.nHeight.toInt64

def asertElapsed (prevTime : Int64) : Int64 :=
  prevTime - getBlockTime params.asertAnchor.nTime

variable (prevHeight prevTime : Int64)

def asertDrift : Int64 :=
  asertElapsed params prevTime - params.nPowTargetSpacing * asertBlocks params prevHeight

/-- How far off schedule, as a 16-bit fixed-point number of half-lives. -/
def asertExponent : Int64 :=
  (asertDrift params prevHeight prevTime * 65536) / params.nASERTHalfLife

variable (exponent : Int64)

/-- The whole number of doublings in the exponent. -/
def asertShifts : Int64 := exponent >>> 16

/-- The remainder in `[0, 1)`. -/
def asertFrac : UInt64 :=
  (exponent - asertShifts exponent * 65536).toUInt64

/-- The cubic in the remainder, before its last shift. -/
def asertCubic (frac : UInt64) : UInt64 :=
  195766423245049 * frac + 971821376 * frac * frac + 5127 * frac * frac * frac +
    ((1 : UInt64) <<< (47 : UInt64))

/-- `2 ^ exponent`, to sixteen fractional bits, by a cubic in the remainder. -/
def asertFactor (frac : UInt64) : UInt64 :=
  (65536 : UInt64) + (asertCubic frac >>> 48)

def asertProduct : ArithUint256 :=
  (setCompact params.asertAnchor.nBits).value.mulUInt32 (asertFactor (asertFrac exponent)).toUInt32

variable (powLimit next : ArithUint256)

/-- The end of `ASERTTarget`: sixteen bits are dropped and the result is clamped. -/
def asertClamp : ArithUint256 :=
  let next := next.shr 16
  if next.equalTo 0 then BaseUint.ofUInt64 1
  else if powLimit.lt next then powLimit
  else next

/-- The shift by the whole doublings in `ASERTTarget`, with its three early returns. -/
def asertShift (shifts : Int64) : ArithUint256 :=
  if shifts ≤ 0 then
    if 256 ≤ -shifts then BaseUint.ofUInt64 1
    else asertClamp powLimit (next.shr (-shifts).toNatClampNeg)
  else if 256 ≤ shifts then powLimit
  else
    let shifted := next.shl shifts.toNatClampNeg
    if shifted.shr shifts.toNatClampNeg ≠ next then powLimit
    else asertClamp powLimit shifted

/-- The part of `ASERTTarget` that follows the exponent. -/
def asertTargetOf (exponent : Int64) : ArithUint256 :=
  asertShift (uintToArith256 params.powLimit) (asertProduct params exponent) (asertShifts exponent)

variable (prevHeight prevTime : Int64)

def asertTarget : ArithUint256 :=
  asertTargetOf params (asertExponent params prevHeight prevTime)

def calculateNextWorkRequired : UInt32 :=
  getCompact (asertTarget params prevHeight prevTime) false

/-- `GetNextWorkRequired`, of the parent's height, time and bits. -/
def getNextWorkRequired (nHeight : Int64) (nTime nBits : UInt32) : UInt32 :=
  if params.fPowNoRetargeting then nBits
  else calculateNextWorkRequired params nHeight (getBlockTime nTime)

def permittedDifficultyTransition (newNBits : UInt32) : Bool :=
  params.fPowNoRetargeting || newNBits == calculateNextWorkRequired params prevHeight prevTime

/-- `DeriveTarget`: the target of the compact form, if it is one. -/
def deriveTarget (nBits : UInt32) (powLimit : Uint256) : Option ArithUint256 :=
  let bnTarget := setCompact nBits
  if bnTarget.fNegative || bnTarget.value.equalTo 0 || bnTarget.fOverflow ||
      (uintToArith256 powLimit).lt bnTarget.value then none
  else some bnTarget.value

def checkProofOfWorkImpl (hash : Uint256) (nBits : UInt32) (params : Consensus.Params) : Bool :=
  match deriveTarget nBits params.powLimit with
  | none => false
  | some bnTarget => !bnTarget.lt (uintToArith256 hash)

end Pow

end Quarlcoin
