import Quarlcoin.Common.Choice
import Quarlcoin.Common.Reach
import Quarlcoin.Policy.FeeFrac
import Quarlcoin.Primitives.Wire
/-!
# The mini miner

`MiniMiner` copies the clusters of some transactions out of the mempool and mines them by
ancestor feerate down to a target. `CalculateBumpFees` says by how much each outpoint has to
be bumped on its own, `CalculateTotalBumpFees` all of them together; the wallet takes the
difference for a discount.

Amounts and sizes are integers: fees are bounded by the supply, so the sums stay within 64
bits.
-/

namespace Quarlcoin

open Arith Reach Serialize

/-! ## Feerates -/

def getFee (feerate : FeeFrac) (virtualBytes : ℤ) : ℤ :=
  if feerate.isEmpty then 0
  else
    let nFee := feerate.evaluateFeeUp virtualBytes
    if nFee = 0 ∧ virtualBytes ≠ 0 ∧ feerate.fee < 0 then -1 else nFee

/-! ## The mempool -/

/-- What the miner reads of a mempool entry. -/
structure PoolEntry where
  vin : List OutPoint
  vsize : ℤ
  modifiedFee : ℤ

/-- A mempool, as a dependency graph. -/
structure TxPool where
  txids : List Uint256
  entry : Uint256 → PoolEntry

namespace TxPool

variable (pool : TxPool) (txid : Uint256)

/-- The transactions in the mempool that this one spends from. -/
def parents : List Uint256 :=
  ((pool.entry txid).vin.map (·.hash)).filter (· ∈ pool.txids)

/-- The transactions in the mempool that spend from this one. -/
def children : List Uint256 := pool.txids.filter fun c => txid ∈ pool.parents c

def getAncestors : List Uint256 :=
  visit pool.parents pool.txids.length [txid] []

def calculateDescendants : List Uint256 :=
  visit pool.children pool.txids.length [txid] []

/-- `CTxMemPool::CalculateAncestorData`, but for the count. -/
def calculateAncestorData : ℤ × ℤ :=
  (((pool.getAncestors txid).map fun t => (pool.entry t).vsize).sum,
    ((pool.getAncestors txid).map fun t => (pool.entry t).modifiedFee).sum)

def getConflictTx (outpoint : OutPoint) : Option Uint256 :=
  pool.txids.find? fun t => outpoint ∈ (pool.entry t).vin

def gatherClusters (txids : List Uint256) : List Uint256 :=
  let ret := visit (fun t => pool.parents t ++ pool.children t) pool.txids.length
    (txids.filter (· ∈ pool.txids)) []
  if ret.length > 500 then [] else ret

end TxPool

/-! ## The miner -/

/-- `MiniMinerMempoolEntry`. -/
structure MockEntry where
  vin : List OutPoint
  vsizeIndividual : ℤ
  vsizeWithAncestors : ℤ
  feeIndividual : ℤ
  feeWithAncestors : ℤ

def MockEntry.updateAncestorState (e : MockEntry) (vsizeChange feeChange : ℤ) : MockEntry :=
  { e with
    vsizeWithAncestors := e.vsizeWithAncestors + vsizeChange
    feeWithAncestors := e.feeWithAncestors + feeChange }

/-- `std::map::emplace`: a key that is there keeps its value. -/
def emplace (fees : OutPoint → Option ℤ) (o : OutPoint) (fee : ℤ) : OutPoint → Option ℤ :=
  if (fees o).isSome then fees else Function.update fees o (some fee)

/-- A `MiniMiner`. The keys of `m_entries_by_txid` are `entries`; descendants of what is gone can
stay. -/
structure MiniMiner where
  readyToCalculate : Bool
  /-- `m_requested_outpoints_by_txid`, not yet grouped. -/
  requestedOutpoints : List OutPoint
  bumpFees : OutPoint → Option ℤ
  inBlock : List Uint256
  entries : List Uint256
  entry : Uint256 → MockEntry
  descendantSet : Uint256 → List Uint256

namespace MiniMiner

variable (m : MiniMiner) (txid : Uint256)

/-- All requested outpoints of a transaction get a bump fee. -/
def charge (fee : ℤ) : MiniMiner :=
  { m with
    bumpFees := (m.requestedOutpoints.filter (·.hash = txid)).foldl
      (fun fees o => emplace fees o fee) m.bumpFees }

/-- The requested outpoints of a transaction cost nothing and are struck off. -/
def discharge : MiniMiner :=
  { m.charge txid 0 with requestedOutpoints := m.requestedOutpoints.filter (·.hash ≠ txid) }

/-- The inputs of an entry that are entries too. -/
def parents : List Uint256 :=
  ((m.entry txid).vin.map (·.hash)).filter (· ∈ m.entries)

end MiniMiner

namespace TxPool

variable (pool : TxPool) (outpoints : List OutPoint)

/-- `m_to_be_replaced`: what spends a requested outpoint, with its descendants. -/
def toBeReplaced : List Uint256 :=
  (outpoints.filter (·.hash ∈ pool.txids)).flatMap fun o =>
    (pool.getConflictTx o).elim [] pool.calculateDescendants

/-- The entry of a transaction, before anything is mined. -/
def mockEntry (txid : Uint256) : MockEntry where
  vin := (pool.entry txid).vin
  vsizeIndividual := (pool.entry txid).vsize
  vsizeWithAncestors := (pool.calculateAncestorData txid).1
  feeIndividual := (pool.entry txid).modifiedFee
  feeWithAncestors := (pool.calculateAncestorData txid).2

/-- Before a cluster is looked at: an outpoint that is not of the mempool costs nothing. -/
def requestAll : MiniMiner where
  readyToCalculate := true
  requestedOutpoints := outpoints.filter (·.hash ∈ pool.txids)
  bumpFees := (outpoints.filter (·.hash ∉ pool.txids)).foldl
    (fun fees o => emplace fees o 0) fun _ => none
  inBlock := []
  entries := []
  entry := pool.mockEntry
  descendantSet := fun _ => []

/-- The constructor of `MiniMiner`. -/
def miniMiner : MiniMiner :=
  let m := pool.requestAll outpoints
  if m.requestedOutpoints = [] then m
  else
    let cluster := pool.gatherClusters (m.requestedOutpoints.map (·.hash))
    if cluster = [] then { m with readyToCalculate := false }
    else
      let replaced := pool.toBeReplaced outpoints
      let m := (cluster.filter (· ∈ replaced)).foldl MiniMiner.discharge m
      { m with
        entries := cluster.filter (· ∉ replaced)
        descendantSet := fun t => (pool.calculateDescendants t).filter (· ∉ replaced) }

end TxPool

namespace MiniMiner

/-- What `AncestorFeerateComparator` compares first. -/
def minFeerate (e : MockEntry) : FeeFrac :=
  let selfFeerate : FeeFrac := ⟨e.feeIndividual, e.vsizeIndividual⟩
  let ancestorFeerate : FeeFrac := ⟨e.feeWithAncestors, e.vsizeWithAncestors⟩
  if selfFeerate.ltByRatioNegSize ancestorFeerate then selfFeerate else ancestorFeerate

variable (m : MiniMiner)

/-- `AncestorFeerateComparator`. Transaction ids are compared as bytes. -/
def before (a b : Uint256) : Bool :=
  if minFeerate (m.entry a) ≠ minFeerate (m.entry b) then
    (minFeerate (m.entry b)).ltByRatioNegSize (minFeerate (m.entry a))
  else (serUint256 a).lex (serUint256 b)

/-- The first entry after `std::sort`. -/
def bestEntry : Option Uint256 := Choice.best m.before m.entries

def ancestorsOf (txid : Uint256) : List Uint256 := visit m.parents m.entries.length [txid] []

/-- An ancestor is mined: it goes into the block, and its descendants no longer
pay for it. -/
def mine (anc : Uint256) : MiniMiner :=
  let e := m.entry anc
  { m with
    inBlock := anc :: m.inBlock
    entry := (m.descendantSet anc).foldl (fun entry d => Function.update entry d
      ((entry d).updateAncestorState (-e.vsizeIndividual) (-e.feeIndividual))) m.entry }

def deleteAncestorPackage (ancestors : List Uint256) : MiniMiner :=
  let m := ancestors.foldl mine m
  { m with entries := m.entries.filter (· ∉ ancestors) }

variable (targetFeerate : Option FeeFrac)

/-- The package of the best entry is below the target. -/
def belowTarget (best : Uint256) : Bool :=
  targetFeerate.any fun target =>
    (m.entry best).feeWithAncestors < getFee target (m.entry best).vsizeWithAncestors

def buildMockTemplateLoop (targetFeerate : Option FeeFrac) : ℕ → MiniMiner → MiniMiner
  | 0, m => m
  | n + 1, m =>
    match m.bestEntry with
    | none => m
    | some best =>
      if m.belowTarget targetFeerate best then m
      else buildMockTemplateLoop targetFeerate n (m.deleteAncestorPackage (m.ancestorsOf best))

/-- `BuildMockTemplate`: a package has at least one entry. -/
def buildMockTemplate : MiniMiner :=
  { buildMockTemplateLoop targetFeerate m.entries.length m with readyToCalculate := false }

variable (target : FeeFrac)

/-- What an entry that was not mined costs: enough for its ancestors and for itself. -/
def bumpFee (e : MockEntry) : ℤ :=
  max (getFee target e.vsizeWithAncestors - e.feeWithAncestors)
    (getFee target e.vsizeIndividual - e.feeIndividual)

/-- The requested outpoints of a transaction that was not mined. -/
def chargeEntry (m : MiniMiner) (txid : Uint256) : MiniMiner :=
  if txid ∈ m.entries then m.charge txid (bumpFee target (m.entry txid)) else m

def calculateBumpFees : OutPoint → Option ℤ :=
  if m.readyToCalculate then
    let m := m.buildMockTemplate (some target)
    let m := m.inBlock.foldl discharge m
    ((m.requestedOutpoints.map (·.hash)).dedup.foldl (chargeEntry target) m).bumpFees
  else fun _ => none

/-- The loop of `CalculateTotalBumpFees` that collects ancestors. -/
def relatedLoop : ℕ → List Uint256 → List Uint256 → List Uint256 → List Uint256
  | 0, _, _, ancestors => ancestors
  | _ + 1, [], _, ancestors => ancestors
  | n + 1, t :: toProcess, processed, ancestors =>
    relatedLoop n ((toProcess ++ (m.parents t).filter (· ∉ processed)).filter (· ≠ t))
      (t :: processed) (m.parents t ∪ ancestors)

def calculateTotalBumpFees : Option ℤ :=
  if m.readyToCalculate then
    let m := m.buildMockTemplate (some target)
    let start := ((m.requestedOutpoints.map (·.hash)).filter
      fun t => t ∉ m.inBlock ∧ t ∈ m.entries).dedup
    let ancestors := m.relatedLoop m.entries.length start [] start
    some (getFee target (ancestors.map fun t => (m.entry t).vsizeIndividual).sum -
      (ancestors.map fun t => (m.entry t).feeIndividual).sum)
  else none

end MiniMiner

/-! ## The wallet -/

/-- What ends a coin selection. -/
inductive SelectionFailure
  /-- `std::map::at` throws. -/
  | outOfRange
  /-- The cluster is too large. -/
  | bumpFeesUnavailable
  /-- The assertion of `SetBumpFeeDiscount`. -/
  | assertion
  deriving DecidableEq

def setBumpFeeDiscount (discount : ℤ) : Except SelectionFailure ℤ :=
  if 0 ≤ discount then .ok discount else .error .assertion

/-- The discount in `ChooseSelectionResult`. The coins' own bump fees were set together with those
of all coins that were listed. -/
def bumpFeeGroupDiscount (pool : TxPool) (listed selected : List OutPoint) (target : FeeFrac) :
    Except SelectionFailure ℤ := do
  let fees := (pool.miniMiner listed).calculateBumpFees target
  let ancestorBumpFees ← selected.mapM fun o => (fees o).elim (.error .outOfRange) .ok
  match (pool.miniMiner selected).calculateTotalBumpFees target with
  | none => .error .bumpFeesUnavailable
  | some combined =>
    let overestimate := ancestorBumpFees.sum - combined
    if overestimate ≠ 0 then setBumpFeeDiscount overestimate else .ok 0

end Quarlcoin
