import Mathlib.Data.Finset.Basic
import Quarlcoin.Script.Parse
/-!
# Kinds of scripts, and the signature operations behind them

The tests of `script/script.cpp` for the forms of output scripts, the flags of
`script/interpreter.h` that say which of them a verification knows, and
`CountWitnessSigOps`.
-/

namespace Quarlcoin

/-- `script_verify_flag_name`. -/
inductive ScriptVerifyFlag where
  | p2sh
  | strictEnc
  | derSig
  | lowS
  | nullDummy
  | sigPushOnly
  | minimalData
  | discourageUpgradableNops
  | cleanStack
  | checkLockTimeVerify
  | checkSequenceVerify
  | witness
  | discourageUpgradableWitnessProgram
  | minimalIf
  | nullFail
  | witnessPubKeyType
  | constScriptCode
  | taproot
  | discourageUpgradableTaprootVersion
  | discourageOpSuccess
  | discourageUpgradablePubKeyType
  deriving DecidableEq

/-- `script_verify_flags`: a set of flags. -/
abbrev ScriptVerifyFlags : Type := Finset ScriptVerifyFlag

namespace Script

def opEqual : UInt8 := 0x87

def opHash160 : UInt8 := 0xa9

def witnessV0ScriptHashSize : ℕ := 32

def witnessV0KeyHashSize : ℕ := 20

variable (script : Script)

def isPayToScriptHash : Bool :=
  decide (script.length = 23) && script[0]? == some opHash160 && script[1]? == some 0x14 &&
    script[22]? == some opEqual

/-- `CScript::IsWitnessProgram`: the version and the program. -/
def isWitnessProgram : Option (ℕ × List UInt8) :=
  if script.length < 4 ∨ script.length > 42 then none
  else
    match script with
    | version :: size :: program =>
      if version ≠ 0 ∧ (version < op1 ∨ op16 < version) then none
      else if size.toNat + 2 = script.length then some (decodeOpN version, program)
      else none
    | _ => none

def pushOnlyLoop : ℕ → Script → Bool
  | 0, pc => pc.isEmpty
  | fuel + 1, pc =>
    if pc.isEmpty then true
    else
      match getScriptOp pc with
      | none => false
      | some (opcode, _, pc) => if op16 < opcode then false else pushOnlyLoop fuel pc

def isPushOnly : Bool := pushOnlyLoop script.length script

/-- The loop for the data of the last operation of `scriptSig`; none where it meets no push. -/
def lastPushLoop : ℕ → Script → List UInt8 → Option (List UInt8)
  | 0, _, vData => some vData
  | fuel + 1, pc, vData =>
    if pc.isEmpty then some vData
    else
      match getScriptOp pc with
      | none => none
      | some (opcode, vData, pc) => if op16 < opcode then none else lastPushLoop fuel pc vData

/-- `GetSigOpCount(scriptSig)`: of the script that `scriptSig` pushes last. -/
def getSigOpCountOf (script scriptSig : Script) : ℕ :=
  if ¬ isPayToScriptHash script then getSigOpCount true script
  else
    match lastPushLoop scriptSig.length scriptSig [] with
    | none => 0
    | some subscript => getSigOpCount true subscript

def witnessSigOps (witversion : ℕ) (witprogram : List UInt8) (witness : List (List UInt8)) : ℕ :=
  if witversion = 0 then
    if witprogram.length = witnessV0KeyHashSize then 1
    else
      match witness.getLast? with
      | some subscript =>
        if witprogram.length = witnessV0ScriptHashSize then getSigOpCount true subscript else 0
      | none => 0
  else 0

/-- `CountWitnessSigOps`; none where its assertion fails. -/
def countWitnessSigOps (scriptSig scriptPubKey : Script) (witness : List (List UInt8))
    (flags : ScriptVerifyFlags) : Option ℕ :=
  if .witness ∉ flags then some 0
  else if .p2sh ∉ flags then none
  else
    match isWitnessProgram scriptPubKey with
    | some (version, program) => some (witnessSigOps version program witness)
    | none =>
      if isPayToScriptHash scriptPubKey && isPushOnly scriptSig then
        -- every operation is a push, so the loop reaches the end
        match isWitnessProgram ((lastPushLoop scriptSig.length scriptSig []).getD []) with
        | some (version, program) => some (witnessSigOps version program witness)
        | none => some 0
      else some 0

end Script

end Quarlcoin
