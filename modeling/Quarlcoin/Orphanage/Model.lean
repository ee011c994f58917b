import Mathlib.Data.List.AList
import Quarlcoin.Common.Choice
import Quarlcoin.Consensus.TxCheck
import Quarlcoin.Policy.FeeFrac
import Quarlcoin.Primitives.Size
/-!
# The orphanage

`node/txorphanage.cpp`: transactions whose inputs are missing are kept with the peers that
announced them, until a global limit is exceeded. Then the peers that use most of their
share lose their oldest announcements. Counters and usages are integers here; what is
narrowed to 32 bits when a score is formed is narrowed here too.
-/

namespace Quarlcoin

open Arith Serialize List

def maxStandardTxWeight : ℕ := 400000

variable (tx : Transaction)

def getTransactionWeight : ℕ :=
  (serializeTransaction false tx).length * (witnessScaleFactor - 1) +
    (serializeTransaction true tx).length

/-- What the orphanage reads of a transaction. An input takes at least 41 bytes. -/
structure OrphanTx where
  wtxid : Uint256
  vin : List OutPoint
  weight : ℕ
  weight_ge : 41 * vin.length ≤ weight
  deriving DecidableEq

theorem vin_le_getTransactionWeight : 41 * tx.vin.length ≤ getTransactionWeight tx := by
  have hinputs : 41 * tx.vin.length ≤ (serVector serTxIn tx.vin).length := by
    have hle : ∀ vin : List TxIn,
        41 * vin.length ≤ (vin.map fun txin => (serTxIn txin).length).sum := by
      intro vin
      induction vin with
      | nil => exact le_refl _
      | cons txin vin ih =>
        have hpos := length_serBytes_pos txin.scriptSig
        rw [map_cons, sum_cons, length_cons, length_serTxIn]
        omega
    have hvin := hle tx.vin
    rw [length_serVector]
    omega
  have hlen := length_serialize_false tx
  have hle := length_serialize_false_le tx
  unfold getTransactionWeight
  omega

/-- A transaction as the orphanage reads it. -/
def Transaction.orphanTx (hash : List UInt8 → Uint256) (tx : Transaction) : OrphanTx where
  wtxid := tx.getWitnessHash hash
  vin := tx.vin.map (·.prevout)
  weight := getTransactionWeight tx
  weight_ge := by
    rw [length_map]
    exact vin_le_getTransactionWeight tx

structure Announcement where
  tx : OrphanTx
  announcer : ℤ
  entrySequence : ℕ
  reconsider : Bool
  deriving DecidableEq

def OrphanTx.memUsage (tx : OrphanTx) : ℤ := tx.weight

def OrphanTx.latencyScore (tx : OrphanTx) : ℤ := 1 + (tx.vin.length / 10 : ℕ)

/-! ## Scores -/

structure PeerDoSInfo where
  totalUsage : ℤ
  countAnnouncements : ℤ
  totalLatencyScore : ℤ
  deriving DecidableEq

namespace PeerDoSInfo

variable (info : PeerDoSInfo) (tx : OrphanTx)

def add : PeerDoSInfo where
  totalUsage := info.totalUsage + tx.memUsage
  countAnnouncements := info.countAnnouncements + 1
  totalLatencyScore := info.totalLatencyScore + tx.latencyScore

/-- `Subtract`; whether nothing is left is seen from the count. -/
def subtract : PeerDoSInfo where
  totalUsage := info.totalUsage - tx.memUsage
  countAnnouncements := info.countAnnouncements - 1
  totalLatencyScore := info.totalLatencyScore - tx.latencyScore

/-- The size of a `FeeFrac` is an `int32_t`. -/
def toSize (n : ℤ) : ℤ := n.bmod (2 ^ 32)

/-- `GetDosScore`, without its assertions. -/
def getDosScore (maxPeerLatencyScore maxPeerMemory : ℤ) : FeeFrac :=
  let latencyScore : FeeFrac := ⟨info.totalLatencyScore, toSize maxPeerLatencyScore⟩
  let memScore : FeeFrac := ⟨info.totalUsage, toSize maxPeerMemory⟩
  if latencyScore.ltByRatioNegSize memScore then memScore else latencyScore

end PeerDoSInfo

/-- `compare_score`, the other way: the first peer is worse than the second. -/
def worse (left right : ℤ × FeeFrac) : Bool :=
  if left.2 ≠ right.2 then right.2.ltByRatioNegSize left.2 else right.1 < left.1

/-! ## The orphanage -/

structure OrphanLimits where
  maxGlobalLatencyScore : ℕ
  reservedUsagePerPeer : ℤ

/-- `TxOrphanageImpl`. -/
structure TxOrphanage where
  limits : OrphanLimits
  currentSequence : ℕ
  orphans : List Announcement
  uniqueOrphans : ℤ
  uniqueOrphanUsage : ℤ
  uniqueRoundedInputScores : ℤ
  outpointToOrphanWtxids : AList fun _ : OutPoint => List Uint256
  reconsiderableWtxids : List Uint256
  peerOrphanageInfo : AList fun _ : ℤ => PeerDoSInfo

/-- What stops the process. -/
inductive OrphanFailure
  /-- An assertion of `GetDosScore`. -/
  | assertion
  /-- `std::pop_heap` on an empty heap. -/
  | emptyHeap
  /-- The loop of `LimitOrphans` goes on. -/
  | unfinished
  deriving DecidableEq

namespace TxOrphanage

def empty (limits : OrphanLimits) : TxOrphanage where
  limits := limits
  currentSequence := 0
  orphans := []
  uniqueOrphans := 0
  uniqueOrphanUsage := 0
  uniqueRoundedInputScores := 0
  outpointToOrphanWtxids := ∅
  reconsiderableWtxids := []
  peerOrphanageInfo := ∅

variable (s : TxOrphanage)

def numPeers : ℕ := s.peerOrphanageInfo.entries.length

variable (peer : ℤ)

def usageByPeer : ℤ := (s.peerOrphanageInfo.lookup peer).elim 0 (·.totalUsage)

def latencyScoreFromPeer : ℤ :=
  (s.peerOrphanageInfo.lookup peer).elim 0 (·.totalLatencyScore)

def totalLatencyScore : ℤ := s.uniqueRoundedInputScores + s.orphans.length

def maxPeerLatencyScore : ℕ := s.limits.maxGlobalLatencyScore / max s.numPeers 1

def maxGlobalUsage : ℤ := s.limits.reservedUsagePerPeer * max s.numPeers 1

def needsTrim : Bool :=
  s.limits.maxGlobalLatencyScore < s.totalLatencyScore ∨ s.maxGlobalUsage < s.uniqueOrphanUsage

variable (wtxid : Uint256)

def haveTx : Bool := s.orphans.any fun ann => ann.tx.wtxid = wtxid

def haveTxFromPeer (peer : ℤ) : Bool :=
  s.orphans.any fun ann => ann.tx.wtxid = wtxid ∧ ann.announcer = peer

variable (ann : Announcement)

def isUnique : Bool :=
  s.orphans.all fun other => other.tx.wtxid = ann.tx.wtxid → other = ann

/-! ### Erasing -/

variable (index : AList fun _ : OutPoint => List Uint256) (prevout : OutPoint)

/-- An input of an erased transaction is taken out of the index, with its key if that is empty. -/
def unlink : AList fun _ : OutPoint => List Uint256 :=
  match index.lookup prevout with
  | none => index
  | some wtxids =>
    let wtxids := wtxids.filter (· ≠ wtxid)
    if wtxids = [] then index.erase prevout else index.insert prevout wtxids

/-- The peer's part of `Erase`. -/
def erasePeerInfo : AList fun _ : ℤ => PeerDoSInfo :=
  match s.peerOrphanageInfo.lookup ann.announcer with
  | none => s.peerOrphanageInfo
  | some info =>
    let info := info.subtract ann.tx
    if info.countAnnouncements = 0 then s.peerOrphanageInfo.erase ann.announcer
    else s.peerOrphanageInfo.insert ann.announcer info

def erase : TxOrphanage :=
  let unique := s.isUnique ann
  { s with
    orphans := s.orphans.erase ann
    peerOrphanageInfo := s.erasePeerInfo ann
    uniqueOrphans := if unique then s.uniqueOrphans - 1 else s.uniqueOrphans
    uniqueRoundedInputScores :=
      if unique then s.uniqueRoundedInputScores - (ann.tx.latencyScore - 1)
      else s.uniqueRoundedInputScores
    uniqueOrphanUsage :=
      if unique then s.uniqueOrphanUsage - ann.tx.memUsage else s.uniqueOrphanUsage
    outpointToOrphanWtxids :=
      if unique then ann.tx.vin.foldl (unlink ann.tx.wtxid) s.outpointToOrphanWtxids
      else s.outpointToOrphanWtxids
    reconsiderableWtxids :=
      if ann.reconsider then s.reconsiderableWtxids.filter (· ≠ ann.tx.wtxid)
      else s.reconsiderableWtxids }

/-! ### Trimming -/

def announcementsOf : List Announcement := s.orphans.filter (·.announcer = peer)

/-- The first announcement of a peer: those that are not to be reconsidered come first, then the
oldest. -/
def firstOf : Option Announcement :=
  Choice.best (fun a b =>
    if a.reconsider ≠ b.reconsider then b.reconsider else a.entrySequence < b.entrySequence)
    (s.announcementsOf peer)

/-- The inner loop of `LimitOrphans`, for a number of announcements. -/
def trimPeer (maxLat maxMem : ℤ) (worstPeer : ℤ) (dosThreshold : FeeFrac) :
    ℕ → TxOrphanage → TxOrphanage
  | 0, s => s
  | n + 1, s =>
    if s.needsTrim then
      match s.firstOf worstPeer with
      | none => s
      | some ann =>
        let s := s.erase ann
        match s.peerOrphanageInfo.lookup worstPeer with
        | none => s
        | some info =>
          if dosThreshold.ltByRatioNegSize (info.getDosScore maxLat maxMem) then
            trimPeer maxLat maxMem worstPeer dosThreshold n s
          else s
    else s

def trimLoop (maxLat maxMem : ℤ) :
    ℕ → List (ℤ × FeeFrac) → TxOrphanage → Except OrphanFailure TxOrphanage
  | 0, _, _ => .error .unfinished
  | n + 1, heap, s =>
    match Choice.best worse heap with
    | none => .error .emptyHeap
    | some worst =>
      let heap := heap.erase worst
      let dosThreshold := (Choice.best worse heap).elim ⟨1, 1⟩ (·.2)
      let s := trimPeer maxLat maxMem worst.1 dosThreshold s.orphans.length s
      if s.needsTrim then
        let heap := match s.peerOrphanageInfo.lookup worst.1 with
          | none => heap
          | some info =>
            if 0 < info.countAnnouncements then (worst.1, info.getDosScore maxLat maxMem) :: heap
            else heap
        trimLoop maxLat maxMem n heap s
      else .ok s

/-- The peers whose score is above one, with their scores. -/
def dosPeers (maxLat maxMem : ℤ) : List (ℤ × FeeFrac) :=
  (s.peerOrphanageInfo.entries.map fun entry =>
    (entry.1, entry.2.getDosScore maxLat maxMem)).filter fun peer => peer.2.size < peer.2.fee

def limitOrphans : Except OrphanFailure TxOrphanage :=
  if s.needsTrim then
    let maxLat : ℤ := s.maxPeerLatencyScore
    let maxMem := s.limits.reservedUsagePerPeer
    -- every peer's score is computed, which asserts that the shares are positive
    if s.peerOrphanageInfo.entries ≠ [] ∧ ¬(0 < maxLat ∧ 0 < maxMem) then .error .assertion
    else trimLoop maxLat maxMem (s.orphans.length + 1) (s.dosPeers maxLat maxMem) s
  else .ok s

/-! ### Calls -/

def link : AList fun _ : OutPoint => List Uint256 :=
  index.insert prevout (((index.lookup prevout).getD []).insert wtxid)

/-- A new announcement, as `AddTx` and `AddAnnouncer` add it; a new transaction is counted and
linked. -/
def announce (tx : OrphanTx) (peer : ℤ) : TxOrphanage :=
  let brandNew := !s.haveTx tx.wtxid
  { s with
    orphans := ⟨tx, peer, s.currentSequence, false⟩ :: s.orphans
    currentSequence := s.currentSequence + 1
    peerOrphanageInfo := s.peerOrphanageInfo.insert peer
      (((s.peerOrphanageInfo.lookup peer).getD ⟨0, 0, 0⟩).add tx)
    outpointToOrphanWtxids :=
      if brandNew then tx.vin.foldl (link tx.wtxid) s.outpointToOrphanWtxids
      else s.outpointToOrphanWtxids
    uniqueOrphans := if brandNew then s.uniqueOrphans + 1 else s.uniqueOrphans
    uniqueOrphanUsage :=
      if brandNew then s.uniqueOrphanUsage + tx.memUsage else s.uniqueOrphanUsage
    uniqueRoundedInputScores :=
      if brandNew then s.uniqueRoundedInputScores + (tx.latencyScore - 1)
      else s.uniqueRoundedInputScores }

def addTx (tx : OrphanTx) (peer : ℤ) : Except OrphanFailure (TxOrphanage × Bool) :=
  if tx.weight > maxStandardTxWeight then .ok (s, false)
  else if s.haveTxFromPeer tx.wtxid peer then .ok (s, false)
  else do
    let s' ← (s.announce tx peer).limitOrphans
    return (s', !s.haveTx tx.wtxid)

def addAnnouncer (peer : ℤ) : Except OrphanFailure (TxOrphanage × Bool) :=
  match s.orphans.find? fun ann => ann.tx.wtxid = wtxid with
  | none => .ok (s, false)
  | some ann =>
    if s.haveTxFromPeer wtxid peer then .ok (s, false)
    else do
      let s' ← (s.announce ann.tx peer).limitOrphans
      return (s', true)

def eraseTxInternal : TxOrphanage :=
  (s.orphans.filter (·.tx.wtxid = wtxid)).foldl erase s

def eraseTx : Except OrphanFailure (TxOrphanage × Bool) := do
  let s' ← (s.eraseTxInternal wtxid).limitOrphans
  return (s', s.haveTx wtxid)

def eraseForPeer : Except OrphanFailure TxOrphanage :=
  if s.announcementsOf peer = [] then .ok s
  else ((s.announcementsOf peer).foldl erase s).limitOrphans

variable (block : List (List OutPoint))

/-- The wtxids that a block includes or conflicts with. -/
def wtxidsToErase : List Uint256 :=
  (block.flatMap fun vin => vin.flatMap fun prevout =>
    (s.outpointToOrphanWtxids.lookup prevout).getD []).dedup

/-- `EraseForBlock`; of the block only the inputs of its transactions are read. -/
def eraseForBlock : Except OrphanFailure TxOrphanage :=
  if s.orphans = [] then .ok s
  else ((s.wtxidsToErase block).foldl eraseTxInternal s).limitOrphans

def setReconsider (reconsider : Bool) : List Announcement :=
  s.orphans.map fun other => if other = ann then { ann with reconsider := reconsider } else other

/-- The body of the loops of `AddChildrenToWorkSet`: one of the announcers is drawn, once for a
wtxid. -/
def addToWorkSet (draw : Uint256 → ℕ) (acc : TxOrphanage × List (Uint256 × ℤ)) (wtxid : Uint256) :
    TxOrphanage × List (Uint256 × ℤ) :=
  let s := acc.1
  if wtxid ∈ s.reconsiderableWtxids then acc
  else
    let announcements := s.orphans.filter (·.tx.wtxid = wtxid)
    match announcements[draw wtxid % announcements.length]? with
    | none => acc
    | some ann =>
      ({ s with
        orphans := s.setReconsider ann true
        reconsiderableWtxids := wtxid :: s.reconsiderableWtxids },
        acc.2 ++ [(wtxid, ann.announcer)])

/-- `AddChildrenToWorkSet`, for a transaction with this id and number of outputs. -/
def addChildrenToWorkSet (txid : Uint256) (vout : ℕ) (draw : Uint256 → ℕ) :
    TxOrphanage × List (Uint256 × ℤ) :=
  (range vout).foldl (fun acc i =>
    ((acc.1.outpointToOrphanWtxids.lookup ⟨txid, UInt32.ofNat i⟩).getD []).foldl
      (addToWorkSet draw) acc) (s, [])

def getTxToReconsider : TxOrphanage × Option OrphanTx :=
  match Choice.best (fun a b => a.entrySequence < b.entrySequence)
      ((s.announcementsOf peer).filter (·.reconsider)) with
  | none => (s, none)
  | some ann =>
    ({ s with
      orphans := s.setReconsider ann false
      reconsiderableWtxids := s.reconsiderableWtxids.filter (· ≠ ann.tx.wtxid) }, some ann.tx)

end TxOrphanage

end Quarlcoin
