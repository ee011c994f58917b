import Quarlcoin.Arith.Model
/-!
# Transactions

`primitives/transaction.h`, and which outputs can never be spent by `script/script.h`. The
hash behind the identifier of a transaction is a parameter.
-/

namespace Quarlcoin

open Arith

abbrev CAmount : Type := Int64

/-- `CScript`: its bytes. -/
abbrev Script : Type := List UInt8

def maxScriptSize : ℕ := 10000

def opReturn : UInt8 := 0x6a

def Script.isUnspendable (script : Script) : Bool :=
  script.head? == some opReturn || decide (script.length > maxScriptSize)

/-- `COutPoint`. -/
structure OutPoint where
  hash : Uint256
  n : UInt32
  deriving DecidableEq

namespace OutPoint

def nullIndex : UInt32 := 0xffffffff

def isNull (o : OutPoint) : Bool := o.hash == 0 && o.n == nullIndex

end OutPoint

/-- `CTxIn`. -/
structure TxIn where
  prevout : OutPoint
  scriptSig : Script
  nSequence : UInt32
  scriptWitness : List (List UInt8)
  deriving DecidableEq

/-- `CTxOut`; its default is the null output. -/
structure TxOut where
  nValue : CAmount := -1
  scriptPubKey : Script := []
  deriving DecidableEq

def TxOut.isNull (out : TxOut) : Bool := out.nValue == -1

/-- `CTransaction`. -/
structure Transaction where
  vin : List TxIn
  vout : List TxOut
  version : UInt32
  nLockTime : UInt32
  deriving DecidableEq

def Transaction.isCoinBase (tx : Transaction) : Bool :=
  match tx.vin with
  | [txin] => txin.prevout.isNull
  | _ => false

end Quarlcoin
