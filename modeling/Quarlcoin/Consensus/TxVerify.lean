import Quarlcoin.Chain.Index
import Quarlcoin.Coins.Model
import Quarlcoin.Consensus.TxCheck
import Quarlcoin.Script.Program
/-!
# Checks of a transaction against its inputs

`consensus/tx_verify.cpp`. Looking at coins leaves them in the caches, so every function
returns the view as well. A sum of amounts that leaves the range of `int64_t` has no meaning
in the source; `addAmount` and `subAmount` stop there with an error of their own.
-/

namespace Quarlcoin

open Arith Coins

/-- The values of `TxValidationResult` that occur here. -/
inductive TxValidationResult where
  | consensus
  | missingInputs
  | prematureSpend
  deriving DecidableEq

/-- How a function of a transaction and its inputs ends, if not with a
result. -/
inductive TxError where
  /-- `state.Invalid` -/
  | invalid (result : TxValidationResult) (reason : String)
  /-- An operation on the coins stops the program. -/
  | view (fault : Fault)
  /-- An assertion fails, or `GetValueOut` throws. -/
  | assertion
  /-- A signed sum does not fit. -/
  | overflow
  deriving DecidableEq

/-- An operation on a view, as a step of such a function. -/
def ofView {α : Type} : Except Fault α → Except TxError α
  | .ok a => .ok a
  | .error fault => .error (.view fault)

/-- The exact value is one of `int64_t`. -/
def fitsAmount (value : ℤ) : Bool := decide (-2 ^ 63 ≤ value) && decide (value < 2 ^ 63)

def addAmount (a b : CAmount) : Except TxError CAmount :=
  if fitsAmount (a.toInt + b.toInt) then .ok (a + b) else .error .overflow

def subAmount (a b : CAmount) : Except TxError CAmount :=
  if fitsAmount (a.toInt - b.toInt) then .ok (a - b) else .error .overflow

def valueOutLoop : CAmount → List TxOut → Except TxError CAmount
  | nValueOut, [] => .ok nValueOut
  | nValueOut, txout :: vout =>
    if ¬ moneyRange txout.nValue then .error .assertion
    else do
      let sum ← addAmount nValueOut txout.nValue
      if ¬ moneyRange sum then .error .assertion else valueOutLoop sum vout

variable (tx : Transaction)

def getValueOut : Except TxError CAmount := valueOutLoop 0 tx.vout

/-! ## Relative lock times -/

def sequenceLocktimeDisableFlag : UInt32 := 0x80000000

def sequenceLocktimeTypeFlag : UInt32 := 0x400000

def sequenceLocktimeMask : UInt32 := 0xffff

def sequenceLocktimeGranularity : UInt32 := 9

def sequenceLocksLoop (m : ChainstateManager) (block : Uint256) :
    List (TxIn × ℕ) → ℤ × ℤ → Except TxError (ℤ × ℤ)
  | [], locks => .ok locks
  | (txin, nCoinHeight) :: rest, (nMinHeight, nMinTime) =>
    if txin.nSequence &&& sequenceLocktimeDisableFlag ≠ 0 then
      sequenceLocksLoop m block rest (nMinHeight, nMinTime)
    else if txin.nSequence &&& sequenceLocktimeTypeFlag ≠ 0 then
      match m.getAncestor block (nCoinHeight - 1) with
      | none => .error .assertion
      | some ancestor =>
        let nCoinTime := (m.getMedianTimePast ancestor).toInt
        let wait := (txin.nSequence &&& sequenceLocktimeMask) <<< sequenceLocktimeGranularity
        sequenceLocksLoop m block rest (nMinHeight, max nMinTime (nCoinTime + wait.toNat - 1))
    else
      let wait := txin.nSequence &&& sequenceLocktimeMask
      sequenceLocksLoop m block rest (max nMinHeight (nCoinHeight + wait.toNat - 1), nMinTime)

variable (m : ChainstateManager)

/-- `CalculateSequenceLocks`; `enforce` is the flag `LOCKTIME_VERIFY_SEQUENCE`. -/
def calculateSequenceLocks (tx : Transaction) (enforce : Bool)
    (prevHeights : List ℕ) (block : Uint256) : Except TxError (ℤ × ℤ) :=
  if prevHeights.length ≠ tx.vin.length then .error .assertion
  else if decide (2 ≤ tx.version) && enforce then
    sequenceLocksLoop m block (tx.vin.zip prevHeights) (-1, -1)
  else .ok (-1, -1)

def evaluateSequenceLocks (block : IndexEntry) (lockPair : ℤ × ℤ) : Except TxError Bool :=
  match block.pprev with
  | none => .error .assertion
  | some pprev =>
    .ok (decide (lockPair.1 < block.nHeight) &&
      decide (lockPair.2 < (m.getMedianTimePast pprev).toInt))

/-! ## Inputs -/

def coinbaseMaturity : ℤ := 100

def haveInputsLoop : List TxIn → CoinsView → Except Fault (CoinsView × Bool)
  | [], view => .ok (view, true)
  | txin :: vin, view => do
    let (view, found) ← view.haveCoin txin.prevout
    if found then haveInputsLoop vin view else .ok (view, false)

variable (view : CoinsView)

def haveInputs : Except Fault (CoinsView × Bool) :=
  if tx.isCoinBase then .ok (view, true) else haveInputsLoop tx.vin view

/-- The coin of an input, which its reader asserts to be there. -/
def inputCoin (txin : TxIn) (view : CoinsView) : Except TxError (CoinsView × Coin) := do
  let (view, coin) ← ofView (view.accessCoin txin.prevout)
  if coin.isSpent then .error .assertion else .ok (view, coin)

/-- The coins of some inputs, in order. -/
def inputCoins : List TxIn → CoinsView → Except TxError (CoinsView × List Coin)
  | [], view => .ok (view, [])
  | txin :: vin, view => do
    let (view, coin) ← inputCoin txin view
    let (view, coins) ← inputCoins vin view
    .ok (view, coin :: coins)

/-- The loop of `CheckTxInputs`: the value of the inputs. -/
def valueInLoop (nSpendHeight : ℕ) :
    List TxIn → CAmount → CoinsView → Except TxError (CoinsView × CAmount)
  | [], nValueIn, view => .ok (view, nValueIn)
  | txin :: vin, nValueIn, view => do
    let (view, coin) ← inputCoin txin view
    if coin.fCoinBase ∧ (nSpendHeight : ℤ) - coin.nHeight.toNat < coinbaseMaturity then
      .error (.invalid .prematureSpend "bad-txns-premature-spend-of-coinbase")
    else
      let nValueIn ← addAmount nValueIn coin.out.nValue
      if ¬ moneyRange coin.out.nValue ∨ ¬ moneyRange nValueIn then
        .error (.invalid .consensus "bad-txns-inputvalues-outofrange")
      else valueInLoop nSpendHeight vin nValueIn view

/-- `Consensus::CheckTxInputs`: the fee. -/
def checkTxInputs (nSpendHeight : ℕ) : Except TxError (CoinsView × CAmount) := do
  let (view, found) ← ofView (haveInputs tx view)
  if ¬ found then .error (.invalid .missingInputs "bad-txns-inputs-missingorspent")
  else
    let (view, nValueIn) ← valueInLoop nSpendHeight tx.vin 0 view
    let valueOut ← getValueOut tx
    if nValueIn < valueOut then .error (.invalid .consensus "bad-txns-in-belowout")
    else
      let txfee ← subAmount nValueIn valueOut
      if ¬ moneyRange txfee then .error (.invalid .consensus "bad-txns-fee-outofrange")
      else .ok (view, txfee)

/-! ## Signature operations -/

/-- `GetP2SHSigOpCount`, an `unsigned int`. -/
def getP2SHSigOpCount : Except TxError (CoinsView × ℕ) :=
  if tx.isCoinBase then .ok (view, 0)
  else do
    let (view, coins) ← inputCoins tx.vin view
    let counts := (tx.vin.zip coins).map fun (txin, coin) =>
      if Script.isPayToScriptHash coin.out.scriptPubKey then
        Script.getSigOpCountOf coin.out.scriptPubKey txin.scriptSig
      else 0
    .ok (view, counts.sum % 2 ^ 32)

/-- The loop that counts the operations of the witnesses. -/
def witnessSigOpLoop (flags : ScriptVerifyFlags) :
    List TxIn → ℕ → CoinsView → Except TxError (CoinsView × ℕ)
  | [], nSigOps, view => .ok (view, nSigOps)
  | txin :: vin, nSigOps, view => do
    let (view, coin) ← inputCoin txin view
    match Script.countWitnessSigOps txin.scriptSig coin.out.scriptPubKey txin.scriptWitness
        flags with
    | none => .error .assertion
    | some count => witnessSigOpLoop flags vin (nSigOps + count) view

def getTransactionSigOpCost (flags : ScriptVerifyFlags) : Except TxError (CoinsView × ℕ) :=
  let nSigOps := getLegacySigOpCount tx * witnessScaleFactor
  if tx.isCoinBase then .ok (view, nSigOps)
  else do
    let (view, count) ← if .p2sh ∈ flags then getP2SHSigOpCount tx view else .ok (view, 0)
    witnessSigOpLoop flags tx.vin (nSigOps + count * witnessScaleFactor) view

end Quarlcoin
