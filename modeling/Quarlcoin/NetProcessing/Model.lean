import Quarlcoin.Chain.Index
import Quarlcoin.Chain.Work
import Quarlcoin.HeadersSync.Model
/-!
# Headers messages — the model

How `net_processing.cpp` handles the `headers` messages of one peer. What is sent in reply,
logged or kept as statistics is left out: nothing here reads it. A failed assertion is a
`Fault`, in place of the node's next state.
-/

namespace Quarlcoin

open Arith Quarlcoin.Pow BaseUint

namespace NetProcessing

/-- The assertions on the way of a `headers` message. -/
inductive Fault where
  /-- `assert(params.commitment_period > 0)` of the `HeadersSyncState`. -/
  | commitmentPeriod
  /-- `assert(pindexLast)`. -/
  | pindexLast
  /-- `ActiveChain().Tip()->`. -/
  | activeTip
  /-- `Assert(pindexWalk)`. -/
  | pindexWalk
  deriving DecidableEq

/-- `PeerManager::Options` and the options of the chainstate manager. -/
structure Options where
  maxHeadersResult : ℕ := 2000
  minimumChainWork : ArithUint256

/-- A peer: the header sync with it, whether it misbehaved, and its connection. -/
structure Peer where
  headersSync : Option (HeadersSync.SyncConfig × HeadersSync.HeadersSyncState) := none
  shouldDiscourage : Bool := false
  /-- `HasPermission(NetPermissionFlags::NoBan)`. -/
  noBan : Bool := false
  isInbound : Bool := true

/-- A node, as far as the messages of one peer go. -/
structure Node where
  chainman : ChainstateManager
  peer : Peer

/-- A message, with what the handler reads of the rest of the node when it arrives. -/
structure HeadersMessage where
  headers : List BlockHeader
  loadingBlocks : Bool := false
  now : Int64
  randrange : ℕ → ℕ
  hasher : Uint256 → UInt64
  wanted : Uint256 → Bool

variable (getHash getPoWHash : BlockHeader → Uint256) (params : ChainParams) (opts : Options)
  (peer : Peer)

def misbehaving : Peer := { peer with shouldDiscourage := true }

/-! ## The checks of a message on its own -/

variable (headers : List BlockHeader)

def hasValidProofOfWork : Bool :=
  headers.all fun header => checkProofOfWorkImpl (getPoWHash header) header.nBits params.consensus

def continuousFrom (hashLastBlock : Uint256) : List BlockHeader → Bool
  | [] => true
  | header :: headers =>
    if hashLastBlock ≠ 0 ∧ header.hashPrevBlock ≠ hashLastBlock then false
    else continuousFrom (getHash header) headers

def checkHeadersAreContinuous : Bool :=
  continuousFrom getHash 0 headers

def checkHeadersPoW (peer : Peer) : Peer × Bool :=
  if ¬ hasValidProofOfWork getPoWHash params headers then (misbehaving peer, false)
  else if ¬ checkHeadersAreContinuous getHash headers then (misbehaving peer, false)
  else (peer, true)

/-! ## The header sync -/

variable (m : ChainstateManager)

def getAntiDoSWorkThreshold : ArithUint256 :=
  let nearChaintipWork :=
    match m.activeTip with
    | none => zero
    | some tip =>
      let buffer := (ofUInt64 144 : ArithUint256).mul (getBlockProof tip.header)
      tip.nChainWork.sub (if tip.nChainWork.lt buffer then tip.nChainWork else buffer)
  if nearChaintipWork.lt opts.minimumChainWork then opts.minimumChainWork else nearChaintipWork

def calculateClaimedHeadersWork : ArithUint256 :=
  chainWork zero headers

/-- The peer, the headers left to process, and whether the sync took the message. -/
def isContinuationOfLowWorkHeadersSync (headers : List BlockHeader) :
    Peer × List BlockHeader × Bool :=
  match peer.headersSync with
  | none => (peer, headers, false)
  | some (C, s) =>
    let (s, result) := HeadersSync.processNextHeaders getHash C s headers
      (headers.length == opts.maxHeadersResult)
    let peer := { peer with
      headersSync := if s.downloadState = .final then none else some (C, s) }
    if result.success then (peer, result.powValidatedHeaders, true) else (peer, headers, false)

/-- `TryLowWorkHeadersSync`: the peer, and whether the message is done with. -/
def tryLowWorkHeadersSync (peer : Peer) (chainStart : BlockIndex)
    (msg : HeadersMessage) (headers : List BlockHeader) : Except Fault (Peer × Bool) :=
  let totalWork := chainStart.nChainWork.add (calculateClaimedHeadersWork headers)
  let minimumChainWork := getAntiDoSWorkThreshold opts m
  if totalWork.lt minimumChainWork then
    if headers.length = opts.maxHeadersResult then
      match HeadersSync.new params.consensus params.headersSync chainStart minimumChainWork
          msg.hasher msg.now msg.randrange with
      | none => .error .commitmentPeriod
      | some sync =>
        let peer := { peer with headersSync := some sync }
        .ok ((isContinuationOfLowWorkHeadersSync getHash opts peer headers).1, true)
    else .ok (peer, true)
  else .ok (peer, false)

/-- `IsAncestorOfBestHeaderOrTip`, of the entry with a hash. -/
def isAncestorOfBestHeaderOrTip (hash : Uint256) : Bool :=
  match m.blockIndex hash with
  | none => false
  | some entry =>
    (m.bestHeader.bind fun best => m.getAncestor best entry.nHeight) == some hash ||
      m.activeContains hash

/-! ## After the headers are processed -/

def maybePunishNodeForBlock (viaCompactBlock : Bool) : BlockValidationResult → Peer
  | .headerLowWork => peer
  | .consensus | .mutated => if viaCompactBlock then peer else misbehaving peer
  | .cachedInvalid => if !viaCompactBlock && !peer.isInbound then misbehaving peer else peer
  | .invalidHeader | .invalidPrev | .missingPrev => misbehaving peer
  | .timeFuture => peer

def maxBlocksInTransitPerPeer : ℕ := 16

def canDirectFetch (now : Int64) (tip : IndexEntry) : Bool :=
  now - params.consensus.nPowTargetSpacing * 20 < tip.header.getBlockTime

/-- The walk of `HeadersDirectFetchBlocks` towards the active chain: where it ends, `none` being
the null pointer. -/
def directFetchWalk (m : ChainstateManager) (wanted : Uint256 → Bool) :
    ℕ → ℕ → Option Uint256 → Option Uint256
  | 0, _, walk => walk
  | _ + 1, _, none => none
  | fuel + 1, toFetch, some hash =>
    if m.activeContains hash ∨ maxBlocksInTransitPerPeer < toFetch then some hash
    else
      directFetchWalk m wanted fuel (if wanted hash then toFetch + 1 else toFetch)
        ((m.blockIndex hash).bind IndexEntry.pprev)

/-- `HeadersDirectFetchBlocks`, as far as its assertions go. -/
def headersDirectFetchBlocks (msg : HeadersMessage) (hash : Uint256)
    (last : IndexEntry) : Except Fault Unit :=
  match m.activeTip with
  | none => .error .activeTip
  | some tip =>
    if canDirectFetch params msg.now tip && !m.failedValid hash &&
        tip.nChainWork.le last.nChainWork then
      match directFetchWalk m msg.wanted (last.nHeight + 1) 0 (some hash) with
      | none => .error .pindexWalk
      | some _ => .ok ()
    else .ok ()

variable (node : Node) (msg : HeadersMessage)

/-- What `ProcessHeadersMessage` does with headers that have shown enough
work. -/
def acceptHeaders (headers : List BlockHeader) (viaCompactBlock : Bool) : Except Fault Node :=
  let (m, processed) := processNewBlockHeaders getHash getPoWHash params.consensus node.chainman
    msg.now headers true
  match processed with
  | .error e => .ok { chainman := m, peer := maybePunishNodeForBlock node.peer viaCompactBlock e.result }
  | .ok pindexLast =>
    match pindexLast.bind fun hash => (m.blockIndex hash).map fun entry => (hash, entry) with
    | none => .error .pindexLast
    | some (hash, last) =>
      match headersDirectFetchBlocks params m msg hash last with
      | .error fault => .error fault
      | .ok () => .ok { node with chainman := m }

/-! ## The message -/

/-- The part of `ProcessHeadersMessage` for headers that connect to
`chainStart`. -/
def processConnecting (chainStart : BlockIndex)
    (headers : List BlockHeader) (alreadyValidatedWork viaCompactBlock : Bool) :
    Except Fault Node :=
  let known := headers.getLast?.any fun last =>
    isAncestorOfBestHeaderOrTip node.chainman (getHash last)
  if alreadyValidatedWork || known || node.peer.noBan then
    acceptHeaders getHash getPoWHash params node msg headers viaCompactBlock
  else
    match tryLowWorkHeadersSync getHash params opts node.chainman node.peer chainStart msg
        headers with
    | .error fault => .error fault
    | .ok (peer, true) => .ok { node with peer := peer }
    | .ok (peer, false) =>
      acceptHeaders getHash getPoWHash params { node with peer := peer } msg headers viaCompactBlock

def processHeadersMessage (viaCompactBlock : Bool) : Except Fault Node :=
  if msg.headers.isEmpty then .ok { node with peer := { node.peer with headersSync := none } }
  else
    match checkHeadersPoW getHash getPoWHash params msg.headers node.peer with
    | (peer, false) => .ok { node with peer := peer }
    | (peer, true) =>
      match isContinuationOfLowWorkHeadersSync getHash opts peer msg.headers with
      | (peer, [], _) => .ok { node with peer := peer }
      | (peer, first :: headers, alreadyValidatedWork) =>
        match node.chainman.lookupBlockIndex first.hashPrevBlock with
        | none => .ok { node with peer := peer }
        | some chainStart =>
          processConnecting getHash getPoWHash params opts { node with peer := peer } msg chainStart
            (first :: headers) alreadyValidatedWork viaCompactBlock

def processMessage : Except Fault Node :=
  if msg.loadingBlocks then .ok node
  else if opts.maxHeadersResult < msg.headers.length then
    .ok { node with peer := misbehaving node.peer }
  else processHeadersMessage getHash getPoWHash params opts node msg false

/-- What happens to a node: a message of the peer, or a change of the chain meanwhile. -/
inductive Event where
  | headers (msg : HeadersMessage)
  | chain (m : ChainstateManager)

def handle : Event → Except Fault Node
  | .headers msg => processMessage getHash getPoWHash params opts node msg
  | .chain m => .ok { node with chainman := m }

def handleAll (events : List Event) : Except Fault Node :=
  events.foldlM (handle getHash getPoWHash params opts) node

end NetProcessing

end Quarlcoin
