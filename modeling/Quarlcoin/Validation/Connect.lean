import Quarlcoin.Consensus.BlockCheck
import Quarlcoin.Consensus.TxVerify
/-!
# Connecting and disconnecting a block — the model

`ConnectBlock` and `DisconnectBlock` of `validation.cpp`, with the functions they call. A
parameter says what the scripts of a transaction come to, whether the queue for them has
threads, and whether the undo data could be written. The cache of scripts that passed is
left out, since it answers as the check does. No network has exceptions in
`script_flag_exceptions`.

An error is raised where the loop of the source breaks. What comes between, the value of the
coinbase's outputs, cannot throw for a block that passed `CheckBlock`.
-/

namespace Quarlcoin

open Arith Coins UInt32

/-- How `ConnectBlock` ends, if not with success. -/
inductive ConnectError where
  /-- `state.Invalid` -/
  | invalid (rejection : Rejection)
  /-- An operation on the coins stops the program. -/
  | view (fault : Fault)
  /-- An assertion fails, or an exception is thrown. -/
  | assertion
  /-- A signed sum does not fit. -/
  | overflow
  /-- `FatalError`, or the undo data cannot be written. -/
  | fatal
  deriving DecidableEq

/-- An error of a transaction's inputs: every rejection is one of the block. -/
def TxError.toConnectError : TxError → ConnectError
  | .invalid _ reason => .invalid ⟨.consensus, reason⟩
  | .view fault => .view fault
  | .assertion => .assertion
  | .overflow => .overflow

/-- A check of a transaction, as a step of `ConnectBlock`. -/
def ofTx {α : Type} (r : Except TxError α) : Except ConnectError α :=
  r.mapError TxError.toConnectError

/-- The functions and settings of a node that `ConnectBlock` reads. -/
structure ConnectEnv extends BlockEnv where
  /-- `AssumedValidBlock()`. -/
  assumedValidBlock : Uint256
  /-- `MinimumChainWork()`. -/
  minimumChainWork : ArithUint256
  /-- `GetCheckQueue().HasThreads()`. -/
  hasThreads : Bool
  /-- `CScriptCheck` on all inputs: the error of the first that fails. -/
  scriptError : Transaction → List TxOut → ScriptVerifyFlags → Option String
  /-- Whether `WriteBlockUndo` succeeds. -/
  writeBlockUndo : List (List Coin) → Bool

/-- `CBlockUndo`: for every transaction but the coinbase, its `CTxUndo`. -/
structure BlockUndo where
  vtxundo : List (List Coin)
  deriving DecidableEq

def getBlockSubsidy (nHeight : ℕ) (params : Consensus.Params) : CAmount :=
  let halvings := (nHeight : ℤ).tdiv params.nSubsidyHalvingInterval
  if halvings ≥ 64 then 0 else (50 * coin) >>> Int64.ofInt halvings

/-! ## Changes to the coins -/

/-- The loop of `AddCoins` from output `i` on; nobody asks for a check for
overwritten coins. -/
def addCoinsLoop (txid : Uint256) (fCoinbase : Bool) (nHeight : ℕ) :
    ℕ → List TxOut → CoinsView → Except Fault CoinsView
  | _, [], view => .ok view
  | i, txout :: vout, view => do
    let coin : Coin := { out := txout, fCoinBase := fCoinbase, nHeight := BitVec.ofNat 31 nHeight }
    let view ← view.addCoin ⟨txid, ofNat i⟩ coin fCoinbase
    addCoinsLoop txid fCoinbase nHeight (i + 1) vout view

variable (hash : List UInt8 → Uint256) (tx : Transaction)

def addCoins (nHeight : ℕ) (view : CoinsView) : Except Fault CoinsView :=
  addCoinsLoop (tx.getHash hash) tx.isCoinBase nHeight 0 tx.vout view

def spendInputs : List TxIn → CoinsView → Except TxError (CoinsView × List Coin)
  | [], view => .ok (view, [])
  | txin :: vin, view => do
    match ← ofView (view.spendCoin txin.prevout) with
    | (_, none) => .error .assertion
    | (view, some coin) =>
      let (view, vprevout) ← spendInputs vin view
      .ok (view, coin :: vprevout)

/-- `UpdateCoins`, with the `CTxUndo` it fills. -/
def updateCoins (view : CoinsView) (nHeight : ℕ) : Except TxError (CoinsView × List Coin) := do
  let (view, txundo) ← if tx.isCoinBase then .ok (view, []) else spendInputs tx.vin view
  let view ← ofView (addCoins hash tx nHeight view)
  .ok (view, txundo)

/-! ## The rules in force -/

variable (pindex : Uint256)

def isBIP30Repeat (nHeight : ℕ) : Bool :=
  (nHeight == 91842 &&
    pindex == 0x00000000000a4d0a398161ffc163c503763b1f4360639393e0e4c8e300e0caec) ||
  (nHeight == 91880 && pindex == 0x00000000000743f190a18c5577a3c2d2a1f610ae9601ac046a38084ccb7cd721)

/-- `IsBIP30Unspendable`, as `DisconnectBlock` writes it out. -/
def isBIP30Unspendable (nHeight : ℕ) : Bool :=
  (nHeight == 91722 &&
    pindex == 0x00000000000271a2dc26e7667f8419f2e15416dc6955e5a6c6cdf3f2574dd08e) ||
  (nHeight == 91812 && pindex == 0x00000000000af0aed4792b1acee3d966af36cf5def14935db8de83d6f9306f2f)

def bip34ImpliesBip30Limit : ℕ := 1983702

/-- Whether the check for overwritten coins is made. -/
def enforceBIP30 (params : Consensus.Params) (m : ChainstateManager) (pindex : Uint256)
    (nHeight : ℕ) (pprev : Uint256) : Bool :=
  let pindexBIP34height :=
    if params.bip34Height < 0 then none else m.getAncestor pprev params.bip34Height.toNat
  (!isBIP30Repeat pindex nHeight &&
      (pindexBIP34height.isNone || pindexBIP34height != some params.bip34Hash)) ||
    decide (bip34ImpliesBip30Limit ≤ nHeight)

def getBlockScriptFlags (params : Consensus.BlockParams) (nHeight : ℕ) : ScriptVerifyFlags :=
  {.p2sh, .witness, .taproot} ∪
    (if deploymentActiveAt nHeight params.bip66Height then {.derSig} else ∅) ∪
    (if deploymentActiveAt nHeight params.bip65Height then {.checkLockTimeVerify} else ∅) ∪
    (if deploymentActiveAt nHeight params.csvHeight then {.checkSequenceVerify} else ∅) ∪
    (if deploymentActiveAt nHeight params.segwitHeight then {.nullDummy} else ∅)

/-- `GetBlockProofEquivalentTime`, whose divisor is a proof of work and so not
zero. -/
def getBlockProofEquivalentTime (dest src tip : IndexEntry) (params : Consensus.Params) : Int64 :=
  let positive := src.nChainWork.lt dest.nChainWork
  let r := if positive then dest.nChainWork.sub src.nChainWork
    else src.nChainWork.sub dest.nChainWork
  let r := ((r.mul (BaseUint.ofUInt64 params.nPowTargetSpacing.toUInt64)).div
    (getBlockProof tip.header)).getD BaseUint.zero
  let time := if r.bits > 63 then Int64.maxValue else r.getLow64.toInt64
  if positive then time else -time

def twoWeeksInSeconds : Int64 := 60 * 60 * 24 * 7 * 2

/-- Whether there is a reason to check the scripts; none where a pointer is
null. -/
def scriptChecks (env : ConnectEnv) (m : ChainstateManager) (pindex : Uint256)
    (entry : IndexEntry) : Option Bool :=
  if env.assumedValidBlock = 0 then some true
  else if (m.blockIndex env.assumedValidBlock).isNone then some true
  else if m.getAncestor env.assumedValidBlock entry.nHeight ≠ some pindex then some true
  else do
    let best ← m.bestHeader
    let bestEntry ← m.blockIndex best
    if m.getAncestor best entry.nHeight ≠ some pindex then some true
    else if bestEntry.nChainWork.lt env.minimumChainWork then some true
    else some (decide (getBlockProofEquivalentTime bestEntry entry bestEntry env.params.toParams ≤
      twoWeeksInSeconds))

/-! ## Connecting -/

/-- The loop over the outputs of a transaction that looks for coins which it
would overwrite. -/
def bip30Loop (txid : Uint256) : ℕ → List TxOut → CoinsView → Except Fault (CoinsView × Bool)
  | _, [], view => .ok (view, false)
  | o, _ :: vout, view => do
    let (view, found) ← view.haveCoin ⟨txid, ofNat o⟩
    let (view, later) ← bip30Loop txid (o + 1) vout view
    .ok (view, found || later)

/-- The loop over the transactions: whether a coin would be overwritten. -/
def bip30Check (hash : List UInt8 → Uint256) :
    List Transaction → CoinsView → Except Fault (CoinsView × Bool)
  | [], view => .ok (view, false)
  | tx :: vtx, view => do
    let (view, found) ← bip30Loop (tx.getHash hash) 0 tx.vout view
    let (view, later) ← bip30Check hash vtx view
    .ok (view, found || later)

def checkBIP30 (enforce : Bool) (vtx : List Transaction)
    (view : CoinsView) : Except ConnectError CoinsView :=
  if enforce then do
    let (view, overwritten) ← ofTx (ofView (bip30Check hash vtx view))
    if overwritten then .error (.invalid ⟨.consensus, "bad-txns-BIP30"⟩) else .ok view
  else .ok view

/-- What the loop over the transactions carries along. -/
structure ConnectState where
  view : CoinsView
  nFees : CAmount := 0
  nSigOpsCost : ℕ := 0
  vtxundo : List (List Coin) := []
  /-- The scripts handed to the queue. -/
  vChecks : List (Transaction × List TxOut) := []

/-- The position of the block that is connected. -/
structure ConnectContext where
  pindex : Uint256
  entry : IndexEntry
  flags : ScriptVerifyFlags
  fScriptChecks : Bool

section

variable (env : ConnectEnv) (m : ChainstateManager) (ctx : ConnectContext) (tx : Transaction)
  (s : ConnectState)

/-- The checks of a transaction that is no coinbase: its fee. -/
def connectInputs : Except ConnectError ConnectState := do
  let (view, txfee) ← ofTx (checkTxInputs tx s.view ctx.entry.nHeight)
  let nFees ← ofTx (addAmount s.nFees txfee)
  if ¬ moneyRange nFees then
    .error (.invalid ⟨.consensus, "bad-txns-accumulated-fee-outofrange"⟩)
  else
    let (view, coins) ← ofTx (inputCoins tx.vin view)
    let locks ← ofTx (calculateSequenceLocks m tx
      (deploymentActiveAt ctx.entry.nHeight env.params.csvHeight)
      (coins.map fun coin => coin.nHeight.toNat) ctx.pindex)
    let final ← ofTx (evaluateSequenceLocks m ctx.entry locks)
    if ¬ final then .error (.invalid ⟨.consensus, "bad-txns-nonfinal"⟩)
    else .ok { s with view, nFees }

/-- The reason a block is rejected for a script. -/
def scriptFailure (error : String) : ConnectError :=
  .invalid ⟨.consensus, "block-script-verify-flag-failed (" ++ error ++ ")"⟩

/-- `CheckInputScripts`, now or by way of the queue. -/
def connectScripts : Except ConnectError ConnectState := do
  let (view, coins) ← ofTx (inputCoins tx.vin s.view)
  let spent := coins.map Coin.out
  if env.hasThreads then .ok { s with view, vChecks := s.vChecks ++ [(tx, spent)] }
  else
    match env.scriptError tx spent ctx.flags with
    | some error => .error (scriptFailure error)
    | none => .ok { s with view }

def connectSigOps : Except ConnectError ConnectState := do
  let (view, cost) ← ofTx (getTransactionSigOpCost tx s.view ctx.flags)
  if s.nSigOpsCost + cost > maxBlockSigopsCost then
    .error (.invalid ⟨.consensus, "bad-blk-sigops"⟩)
  else .ok { s with view, nSigOpsCost := s.nSigOpsCost + cost }

def connectChecks : Except ConnectError ConnectState :=
  if tx.isCoinBase then connectSigOps ctx tx s
  else do
    let s ← connectSigOps ctx tx (← connectInputs env m ctx tx s)
    if ctx.fScriptChecks then connectScripts env ctx tx s else .ok s

/-- The body of the loop; `first` is the round of the coinbase, whose undo data
is not kept. -/
def connectTx (first : Bool) (tx : Transaction) (s : ConnectState) :
    Except ConnectError ConnectState := do
  let s ← connectChecks env m ctx tx s
  let (view, txundo) ← ofTx (updateCoins env.hash tx s.view ctx.entry.nHeight)
  .ok { s with view, vtxundo := if first then s.vtxundo else s.vtxundo ++ [txundo] }

def connectLoop : Bool → List Transaction → ConnectState → Except ConnectError ConnectState
  | _, [], s => .ok s
  | first, tx :: vtx, s => do connectLoop false vtx (← connectTx env m ctx first tx s)

/-- What comes behind the loop: the reward, and the scripts in the queue. -/
def connectFinish (coinbase : Transaction) (s : ConnectState) : Except ConnectError Unit := do
  let blockReward ← ofTx (addAmount s.nFees (getBlockSubsidy ctx.entry.nHeight env.params.toParams))
  let valueOut ← ofTx (getValueOut coinbase)
  if valueOut > blockReward then .error (.invalid ⟨.consensus, "bad-cb-amount"⟩)
  else
    match s.vChecks.findSome? fun (tx, spent) => env.scriptError tx spent ctx.flags with
    | some error => .error (scriptFailure error)
    | none => .ok ()

end

section

variable (env : ConnectEnv) (m : ChainstateManager)

/-- `ConnectBlock` behind the special case of the genesis block: the view and
the undo data. -/
def connectTransactions (block : Block) (pindex : Uint256) (entry : IndexEntry) (view : CoinsView) :
    Except ConnectError (CoinsView × BlockUndo) := do
  match scriptChecks env m pindex entry, entry.pprev, block.vtx with
  | some fScriptChecks, some pprev, coinbase :: _ =>
    let ctx : ConnectContext :=
      { pindex, entry, flags := getBlockScriptFlags env.params entry.nHeight, fScriptChecks }
    let view ← checkBIP30 env.hash
      (enforceBIP30 env.params.toParams m pindex entry.nHeight pprev) block.vtx view
    let s ← connectLoop env m ctx true block.vtx { view }
    connectFinish env ctx coinbase s
    .ok (s.view, ⟨s.vtxundo⟩)
  | _, _, _ => .error .assertion

/-- `ConnectBlock`. The undo data is what was written. -/
def connectBlock (block : MemBlock env.toBlockEnv) (pindex : Uint256) (view : CoinsView)
    (fJustCheck : Bool) : Except ConnectError (CoinsView × Option BlockUndo) := do
  let blockHash := env.hash (serBlockHeader block.header)
  match m.blockIndex pindex with
  | none => .error .assertion
  | some entry =>
    if pindex ≠ blockHash then .error .assertion
    else
      match checkBlock block (!fJustCheck) (!fJustCheck) with
      | .error rejection =>
        if rejection.result = .mutated then .error .fatal else .error (.invalid rejection)
      | .ok _ =>
        let (view, best) := view.getBestBlock
        if entry.pprev.getD 0 ≠ best then .error .assertion
        else if blockHash = env.params.hashGenesisBlock then
          .ok (if fJustCheck then view else view.setBestBlock pindex, none)
        else
          let (view, blockundo) ← connectTransactions env m block.toBlock pindex entry view
          if fJustCheck then .ok (view, none)
          else if ¬ env.writeBlockUndo blockundo.vtxundo then .error .fatal
          else .ok (view.setBestBlock pindex, some blockundo)

end

/-! ## Disconnecting -/

/-- How `DisconnectBlock` ends without a view. -/
inductive DisconnectError where
  /-- `DISCONNECT_FAILED` -/
  | failed
  /-- An operation on the coins stops the program. -/
  | view (fault : Fault)
  deriving DecidableEq

/-- An operation on a view, as a step of `DisconnectBlock`. -/
def ofViewUndo {α : Type} (r : Except Fault α) : Except DisconnectError α :=
  r.mapError DisconnectError.view

/-- `MAX_OUTPUTS_PER_BLOCK`: an output takes nine bytes at least. -/
def maxOutputsPerBlock : ℕ := maxBlockWeight / (witnessScaleFactor * 9)

def accessByTxidLoop (txid : Uint256) : ℕ → UInt32 → CoinsView → Except Fault (CoinsView × Coin)
  | 0, _, view => .ok (view, {})
  | n + 1, i, view => do
    let (view, alternate) ← view.accessCoin ⟨txid, i⟩
    if ¬ alternate.isSpent then .ok (view, alternate)
    else accessByTxidLoop txid n (i + 1) view

def accessByTxid (view : CoinsView) (txid : Uint256) : Except Fault (CoinsView × Coin) :=
  accessByTxidLoop txid maxOutputsPerBlock 0 view

/-- `ApplyTxInUndo`: whether it was clean. -/
def applyTxInUndo (undo : Coin) (view : CoinsView) (out : OutPoint) :
    Except DisconnectError (CoinsView × Bool) := do
  let (view, found) ← ofViewUndo (view.haveCoin out)
  if undo.nHeight = 0 then
    let (view, alternate) ← ofViewUndo (accessByTxid view out.hash)
    if alternate.isSpent then .error .failed
    else
      let undo := { undo with nHeight := alternate.nHeight, fCoinBase := alternate.fCoinBase }
      let view ← ofViewUndo (view.addCoin out undo found)
      .ok (view, !found)
  else
    let view ← ofViewUndo (view.addCoin out undo found)
    .ok (view, !found)

/-- The loop that takes the outputs of a transaction out again, from output
`o` on. -/
def unspendOutputs (txid : Uint256) (isCoinbase isBip30Exception : Bool) (nHeight : ℕ) :
    ℕ → List TxOut → CoinsView → Except DisconnectError (CoinsView × Bool)
  | _, [], view => .ok (view, true)
  | o, txout :: vout, view =>
    if txout.scriptPubKey.isUnspendable then
      unspendOutputs txid isCoinbase isBip30Exception nHeight (o + 1) vout view
    else do
      let (view, moved) ← ofViewUndo (view.spendCoin ⟨txid, ofNat o⟩)
      let clean :=
        match moved with
        | none => false
        | some coin =>
          decide (txout = coin.out ∧ nHeight = coin.nHeight.toNat ∧ isCoinbase = coin.fCoinBase)
      let (view, later) ←
        unspendOutputs txid isCoinbase isBip30Exception nHeight (o + 1) vout view
      .ok (view, (clean || isBip30Exception) && later)

def restoreInputs : List TxIn → List Coin → CoinsView → Except DisconnectError (CoinsView × Bool)
  | txin :: vin, coin :: vprevout, view => do
    let (view, later) ← restoreInputs vin vprevout view
    let (view, clean) ← applyTxInUndo coin view txin.prevout
    .ok (view, later && clean)
  | _, _, view => .ok (view, true)

section

variable (hash : List UInt8 → Uint256) (fEnforceBIP30 : Bool) (nHeight : ℕ) (tx : Transaction)

def disconnectOutputs (view : CoinsView) : Except DisconnectError (CoinsView × Bool) :=
  unspendOutputs (tx.getHash hash) tx.isCoinBase (tx.isCoinBase && !fEnforceBIP30) nHeight 0 tx.vout
    view

/-- A transaction behind the first. -/
def disconnectTx (txundo : List Coin) (view : CoinsView) :
    Except DisconnectError (CoinsView × Bool) := do
  let (view, cleanOut) ← disconnectOutputs hash fEnforceBIP30 nHeight tx view
  if txundo.length ≠ tx.vin.length then .error .failed
  else
    let (view, cleanIn) ← restoreInputs tx.vin txundo view
    .ok (view, cleanOut && cleanIn)

/-- The transactions behind the first, from the last to the first. -/
def disconnectLoop : List Transaction → List (List Coin) → CoinsView →
    Except DisconnectError (CoinsView × Bool)
  | tx :: vtx, txundo :: vtxundo, view => do
    let (view, later) ← disconnectLoop vtx vtxundo view
    let (view, clean) ← disconnectTx hash fEnforceBIP30 nHeight tx txundo view
    .ok (view, later && clean)
  | _, _, view => .ok (view, true)

end

/-- `DisconnectBlock`: the view, and whether the result is `DISCONNECT_OK` or
`DISCONNECT_UNCLEAN`. `undo` is what `ReadBlockUndo` returns, and `pprev` the
hash of the entry before. -/
def disconnectBlock (hash : List UInt8 → Uint256) (block : Block) (pindex : Uint256) (nHeight : ℕ)
    (pprev : Uint256) (undo : Option BlockUndo) (view : CoinsView) :
    Except DisconnectError (CoinsView × Bool) := do
  match undo with
  | none => .error .failed
  | some blockUndo =>
    if blockUndo.vtxundo.length + 1 ≠ block.vtx.length then .error .failed
    else
      let fEnforceBIP30 := !isBIP30Unspendable pindex nHeight
      match block.vtx with
      | [] => .error .failed
      | coinbase :: vtx =>
        let (view, later) ← disconnectLoop hash fEnforceBIP30 nHeight vtx blockUndo.vtxundo view
        let (view, clean) ← disconnectOutputs hash fEnforceBIP30 nHeight coinbase view
        .ok (view.setBestBlock pprev, later && clean)

end Quarlcoin
