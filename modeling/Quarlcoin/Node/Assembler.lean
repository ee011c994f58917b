import Quarlcoin.Consensus.BlockCheck
import Quarlcoin.Orphanage.Model
import Quarlcoin.TxGraph.Selection
/-!
# Assembling a block template

`BlockAssembler` of `node/miner.cpp` takes chunks in the order of the builder, as long as
they fit and are final, and stops when the feerate is too low or nothing has fitted for
long.
-/

namespace Quarlcoin

open TxGraph

/-! ## Options -/

def minimumBlockReservedWeight : ℕ := 2000

def defaultBlockReservedWeight : ℕ := 8000

def defaultBlockMaxWeight : ℕ := maxBlockWeight

def defaultBlockMinFeeRate : FeeFrac := ⟨1, 1000⟩

/-- `BlockCreateOptions`, as far as the selection of transactions reads it. -/
structure BlockCreateOptions where
  blockMinFeeRate : Option FeeFrac
  blockReservedWeight : Option ℕ
  blockMaxWeight : Option ℕ
  coinbaseOutputMaxAdditionalSigops : ℕ

/-- The options once every one has a value. -/
structure MiningOptions where
  blockMinFeeRate : FeeFrac
  blockReservedWeight : ℕ
  blockMaxWeight : ℕ
  coinbaseOutputMaxAdditionalSigops : ℕ

variable (options : BlockCreateOptions)

def flattenMiningOptions : MiningOptions where
  blockMinFeeRate := options.blockMinFeeRate.getD defaultBlockMinFeeRate
  blockReservedWeight := options.blockReservedWeight.getD defaultBlockReservedWeight
  blockMaxWeight := options.blockMaxWeight.getD defaultBlockMaxWeight
  coinbaseOutputMaxAdditionalSigops := options.coinbaseOutputMaxAdditionalSigops

/-- The errors of `CheckMiningOptions`, with the numbers that they name. -/
inductive MiningOptionsError where
  | reservedWeightTooLow (reserved minimum : ℕ)
  | reservedWeightTooHigh (reserved maximum : ℕ)
  | maxWeightTooHigh (max maximum : ℕ)
  | reservedWeightExceedsMaxWeight (reserved max : ℕ)
  | additionalSigopsTooHigh (sigops maximum : ℕ)
  deriving DecidableEq

def checkMiningOptions : Except MiningOptionsError Unit :=
  let o := flattenMiningOptions options
  if o.blockReservedWeight < minimumBlockReservedWeight then
    .error (.reservedWeightTooLow o.blockReservedWeight minimumBlockReservedWeight)
  else if maxBlockWeight < o.blockReservedWeight then
    .error (.reservedWeightTooHigh o.blockReservedWeight maxBlockWeight)
  else if maxBlockWeight < o.blockMaxWeight then
    .error (.maxWeightTooHigh o.blockMaxWeight maxBlockWeight)
  else if o.blockMaxWeight < o.blockReservedWeight then
    .error (.reservedWeightExceedsMaxWeight o.blockReservedWeight o.blockMaxWeight)
  else if maxBlockSigopsCost < o.coinbaseOutputMaxAdditionalSigops then
    .error (.additionalSigopsTooHigh o.coinbaseOutputMaxAdditionalSigops maxBlockSigopsCost)
  else .ok ()

/-! ## The assembler -/

/-- What the assembler reads of a `CTxMemPoolEntry`. -/
structure MiningEntry where
  tx : Transaction
  fee : CAmount
  sigOpCost : ℕ

def MiningEntry.txWeight (e : MiningEntry) : ℕ := getTransactionWeight e.tx

def getSigOpsAdjustedWeight (weight sigopCost bytesPerSigop : ℕ) : ℕ :=
  max weight (sigopCost * bytesPerSigop)

def toFeePerVSize (feerate : FeeFrac) : FeeFrac :=
  ⟨feerate.fee, (feerate.size + witnessScaleFactor - 1) / witnessScaleFactor⟩

def maxConsecutiveFailures : ℕ := 1000

def blockFullEnoughWeightDelta : ℕ := 4000

/-- `BlockAssembler` with its block template; the coinbase is not listed. -/
structure BlockAssembler (τ : Type*) where
  builder : BlockBuilder τ
  vtx : List τ
  vTxFees : List CAmount
  vTxSigOpsCost : List ℕ
  packageFeerates : List FeeFrac
  nBlockWeight : ℕ
  nBlockSigOpsCost : ℕ
  nBlockTx : ℕ
  nFees : CAmount

/-- What `CreateNewBlock` knows when it adds transactions. -/
structure TemplateContext (τ : Type*) where
  graph : MainGraph τ
  entries : τ → MiningEntry
  options : MiningOptions
  nHeight : ℕ
  lockTimeCutoff : Int64

namespace BlockAssembler

variable {τ : Type*} (ctx : TemplateContext τ) (a : BlockAssembler τ)

/-- `resetBlock`, with a fresh builder. -/
def reset (builder : BlockBuilder τ) : BlockAssembler τ where
  builder
  vtx := []
  vTxFees := []
  vTxSigOpsCost := []
  packageFeerates := []
  nBlockWeight := ctx.options.blockReservedWeight
  nBlockSigOpsCost := ctx.options.coinbaseOutputMaxAdditionalSigops
  nBlockTx := 0
  nFees := 0

def testChunkBlockLimits (chunkFeerate : FeeFrac) (chunkSigopsCost : ℕ) : Bool :=
  if (ctx.options.blockMaxWeight : ℤ) ≤ a.nBlockWeight + chunkFeerate.size then false
  else if maxBlockSigopsCost ≤ a.nBlockSigOpsCost + chunkSigopsCost then false
  else true

variable (txs : List τ)

def testChunkTransactions : Bool :=
  txs.all fun t => isFinalTx (ctx.entries t).tx ctx.nHeight ctx.lockTimeCutoff

def addToBlock (t : τ) : BlockAssembler τ :=
  let entry := ctx.entries t
  { a with
    vtx := a.vtx ++ [t]
    vTxFees := a.vTxFees ++ [entry.fee]
    vTxSigOpsCost := a.vTxSigOpsCost ++ [entry.sigOpCost]
    nBlockWeight := a.nBlockWeight + entry.txWeight
    nBlockTx := a.nBlockTx + 1
    nBlockSigOpsCost := a.nBlockSigOpsCost + entry.sigOpCost
    nFees := a.nFees + entry.fee }

variable (feerate : FeeFrac)

/-- The chunk fits, and its transactions are final. -/
def chunkFits : Bool :=
  a.testChunkBlockLimits ctx feerate (txs.map fun t => (ctx.entries t).sigOpCost).sum &&
    testChunkTransactions ctx txs

def addChunk : BlockAssembler τ :=
  let added := txs.foldl (addToBlock ctx) { a with builder := a.builder.includeChunk ctx.graph }
  { added with packageFeerates := added.packageFeerates ++ [toFeePerVSize feerate] }

def addChunksLoop : ℕ → ℕ → BlockAssembler τ → Option (BlockAssembler τ)
  | 0, _, _ => none
  | rounds + 1, nConsecutiveFailed, a =>
    let (chunk, builder) := a.builder.getCurrentChunk ctx.graph
    let a := { a with builder }
    match chunk with
    | none => some a
    | some (txs, feerate) =>
      if txs = [] then some a
      else if byRatio (toFeePerVSize feerate) ctx.options.blockMinFeeRate = .lt then
        -- everything else has a lower feerate
        some a
      else if a.chunkFits ctx txs feerate then addChunksLoop rounds 0 (a.addChunk ctx txs feerate)
      else
        let a := { a with builder := a.builder.skipChunk ctx.graph }
        if maxConsecutiveFailures < nConsecutiveFailed + 1 ∧
            ctx.options.blockMaxWeight < a.nBlockWeight + blockFullEnoughWeightDelta then
          some a
        else addChunksLoop rounds (nConsecutiveFailed + 1) a

/-- `addChunks` on a fresh builder, with a round for every chunk. -/
def addChunks (indeterminate : Bool) : Option (BlockAssembler τ) :=
  addChunksLoop ctx (ctx.graph.chunkIndex.length + 1) 0
    (reset ctx (.new ctx.graph indeterminate))

end BlockAssembler

end Quarlcoin
