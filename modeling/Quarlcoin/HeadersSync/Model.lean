import Quarlcoin.Chain.Model
/-!
# Low-work header sync — the model

`headerssync.cpp`: a peer's headers are downloaded twice. In `presync` they leave one bit
each `commitmentPeriod` blocks; in `redownload` they are checked against those bits,
buffered and handed out.

The members the class never assigns are a `SyncConfig`. The hash of a header is a parameter;
a function that fails leaves the members as it had changed them by then.
-/

namespace Quarlcoin

open Arith Quarlcoin.Pow

namespace HeadersSync

/-- `CompressedHeader`: a header without the hash of its parent. -/
structure CompressedHeader where
  nVersion : Int32
  hashMerkleRoot : Uint256
  nTime : UInt32
  nBits : UInt32
  nNonce : UInt32
  deriving DecidableEq

namespace CompressedHeader

def ofHeader (header : BlockHeader) : CompressedHeader where
  nVersion := header.nVersion
  hashMerkleRoot := header.hashMerkleRoot
  nTime := header.nTime
  nBits := header.nBits
  nNonce := header.nNonce

def getFullHeader (c : CompressedHeader) (hashPrevBlock : Uint256) : BlockHeader where
  nVersion := c.nVersion
  hashPrevBlock := hashPrevBlock
  hashMerkleRoot := c.hashMerkleRoot
  nTime := c.nTime
  nBits := c.nBits
  nNonce := c.nNonce

end CompressedHeader

inductive State where
  /-- The peer has not yet shown enough work; only commitments are kept. -/
  | presync
  /-- It has, and the headers are downloaded again and buffered. -/
  | redownload
  /-- The sync is over. -/
  | final
  deriving DecidableEq

/-- The constant members of `HeadersSyncState`. -/
structure SyncConfig where
  consensusParams : Consensus.Params
  params : HeadersSyncParams
  commitOffset : ℕ
  chainStart : BlockIndex
  minimumRequiredWork : ArithUint256
  maxCommitments : ℕ
  /-- The salted hasher of the commitments. -/
  hasher : Uint256 → UInt64

/-- The other members of `HeadersSyncState`. -/
structure HeadersSyncState where
  currentChainWork : ArithUint256
  /-- The queue of commitment bits, oldest first. -/
  headerCommitments : List Bool
  lastHeaderReceived : BlockHeader
  currentHeight : Int64
  /-- The redownload buffer, oldest first. -/
  redownloadedHeaders : List CompressedHeader
  redownloadBufferLastHeight : Int64
  redownloadBufferLastHash : Uint256
  redownloadBufferFirstPrevHash : Uint256
  redownloadChainWork : ArithUint256
  processAllRemainingHeaders : Bool
  downloadState : State

structure ProcessingResult where
  powValidatedHeaders : List BlockHeader := []
  success : Bool := false
  requestMore : Bool := false
  deriving DecidableEq

variable (getHash : BlockHeader → Uint256) (C : SyncConfig)

def init : HeadersSyncState where
  currentChainWork := C.chainStart.nChainWork
  headerCommitments := []
  lastHeaderReceived := C.chainStart.header
  currentHeight := Int64.ofNat C.chainStart.nHeight
  redownloadedHeaders := []
  redownloadBufferLastHeight := 0
  redownloadBufferLastHash := 0
  redownloadBufferFirstPrevHash := 0
  redownloadChainWork := BaseUint.zero
  processAllRemainingHeaders := false
  downloadState := .presync

/-- The constructor; `none` is the failed assertion on the commitment period. -/
def new (consensusParams : Consensus.Params) (params : HeadersSyncParams)
    (chainStart : BlockIndex) (minimumRequiredWork : ArithUint256) (hasher : Uint256 → UInt64)
    (now : Int64) (randrange : ℕ → ℕ) : Option (SyncConfig × HeadersSyncState) :=
  if 0 < params.commitmentPeriod then
    let maxSecondsSinceStart := now - chainStart.medianTimePast + maxFutureBlockTime
    let C : SyncConfig :=
      { consensusParams, params, chainStart, minimumRequiredWork, hasher
        commitOffset := randrange params.commitmentPeriod
        maxCommitments := (6 * maxSecondsSinceStart).toUInt64.toNat / params.commitmentPeriod }
    some (C, init C)
  else none

variable (s : HeadersSyncState)

def finalize : HeadersSyncState :=
  { s with
    headerCommitments := []
    lastHeaderReceived := BlockHeader.null
    redownloadedHeaders := []
    redownloadBufferLastHash := 0
    redownloadBufferFirstPrevHash := 0
    processAllRemainingHeaders := false
    currentHeight := 0
    downloadState := .final }

/-- `height % commitment_period == m_commit_offset`, in the unsigned arithmetic of `size_t`. -/
def isCommitmentHeight (height : Int64) : Bool :=
  height.toUInt64.toNat % C.params.commitmentPeriod == C.commitOffset

variable (header : BlockHeader)

/-- The commitment to a header: one bit of its salted hash. -/
def commitment : Bool := C.hasher (getHash header) &&& 1 != 0

/-! ## Presync -/

/-- `int next_height = m_current_height + 1`, as an `int64_t` again. -/
def nextHeight (height : Int64) : Int64 := (height + 1).toInt32.toInt64

def validateAndProcessSingleHeader (current : BlockHeader) : HeadersSyncState × Bool :=
  if s.downloadState ≠ .presync then (s, false)
  else if ¬ permittedDifficultyTransition C.consensusParams s.currentHeight
      s.lastHeaderReceived.getBlockTime current.nBits then (s, false)
  else
    let commits := isCommitmentHeight C (nextHeight s.currentHeight)
    let commitments := if commits then s.headerCommitments ++ [commitment getHash C current]
      else s.headerCommitments
    if commits ∧ C.maxCommitments < commitments.length then
      ({ s with headerCommitments := commitments }, false)
    else
      ({ s with
          headerCommitments := commitments
          currentChainWork := s.currentChainWork.add (getBlockProof current)
          lastHeaderReceived := current
          currentHeight := nextHeight s.currentHeight }, true)

def validateEach (step : HeadersSyncState → BlockHeader → HeadersSyncState × Bool) :
    HeadersSyncState → List BlockHeader → HeadersSyncState × Bool
  | s, [] => (s, true)
  | s, header :: headers =>
    match step s header with
    | (s, true) => validateEach step s headers
    | (s, false) => (s, false)

def startRedownload : HeadersSyncState :=
  { s with
    redownloadedHeaders := []
    redownloadBufferLastHeight := Int64.ofNat C.chainStart.nHeight
    redownloadBufferFirstPrevHash := getHash C.chainStart.header
    redownloadBufferLastHash := getHash C.chainStart.header
    redownloadChainWork := C.chainStart.nChainWork
    downloadState := .redownload }

def validateAndStoreHeadersCommitments : List BlockHeader → HeadersSyncState × Bool
  | [] => (s, true)
  | first :: headers =>
    if s.downloadState ≠ .presync then (s, false)
    else if first.hashPrevBlock ≠ getHash s.lastHeaderReceived then (s, false)
    else
      match validateEach (validateAndProcessSingleHeader getHash C) s (first :: headers) with
      | (s, false) => (s, false)
      | (s, true) =>
        if C.minimumRequiredWork.le s.currentChainWork then (startRedownload getHash C s, true)
        else (s, true)

/-! ## Redownload -/

/-- `previous_time`: of the last buffered header, or of the start of the chain when there is none.
-/
def previousTime : UInt32 :=
  match s.redownloadedHeaders.getLast? with
  | some last => last.nTime
  | none => C.chainStart.header.nTime

/-- The work of the redownloaded chain, and with it whether all of it may
be released. -/
def trackWork : HeadersSyncState :=
  let work := s.redownloadChainWork.add (getBlockProof header)
  { s with
    redownloadChainWork := work
    processAllRemainingHeaders := s.processAllRemainingHeaders || C.minimumRequiredWork.le work }

/-- The check of a header's commitment, where there is one to check. -/
def checkCommitment (height : Int64) (header : BlockHeader) : HeadersSyncState × Bool :=
  if ¬ s.processAllRemainingHeaders ∧ isCommitmentHeight C height then
    match s.headerCommitments with
    | [] => (s, false)
    | expected :: rest =>
      ({ s with headerCommitments := rest }, commitment getHash C header == expected)
  else (s, true)

/-- The end of `ValidateAndStoreRedownloadedHeader`. -/
def storeRedownloaded (height : Int64) (header : BlockHeader) : HeadersSyncState :=
  { s with
    redownloadedHeaders := s.redownloadedHeaders ++ [CompressedHeader.ofHeader header]
    redownloadBufferLastHeight := height
    redownloadBufferLastHash := getHash header }

def validateAndStoreRedownloadedHeader : HeadersSyncState × Bool :=
  if s.downloadState ≠ .redownload then (s, false)
  else
    let height := s.redownloadBufferLastHeight + 1
    if header.hashPrevBlock ≠ s.redownloadBufferLastHash then (s, false)
    else if ¬ permittedDifficultyTransition C.consensusParams (height - 1)
        (getBlockTime (previousTime C s)) header.nBits then (s, false)
    else
      match checkCommitment getHash C (trackWork C s header) height header with
      | (s, false) => (s, false)
      | (s, true) => (storeRedownloaded getHash s height header, true)

/-- The loop of `PopHeadersReadyForAcceptance`: the headers released, what is left, and the last
hash. -/
def popLoop (releaseAll : Bool) :
    List CompressedHeader → Uint256 → List BlockHeader × List CompressedHeader × Uint256
  | [], prevHash => ([], [], prevHash)
  | c :: buffer, prevHash =>
    if C.params.redownloadBufferSize < buffer.length + 1 ∨ releaseAll then
      let header := c.getFullHeader prevHash
      let (released, buffer, prevHash) := popLoop releaseAll buffer (getHash header)
      (header :: released, buffer, prevHash)
    else ([], c :: buffer, prevHash)

def popHeadersReadyForAcceptance : HeadersSyncState × List BlockHeader :=
  if s.downloadState ≠ .redownload then (s, [])
  else
    let (released, buffer, prevHash) := popLoop getHash C s.processAllRemainingHeaders
      s.redownloadedHeaders s.redownloadBufferFirstPrevHash
    ({ s with redownloadedHeaders := buffer, redownloadBufferFirstPrevHash := prevHash }, released)

/-! ## The call -/

variable (headers : List BlockHeader) (full : Bool)

def processPresync : HeadersSyncState × ProcessingResult :=
  match validateAndStoreHeadersCommitments getHash C s headers with
  | (s, false) => (s, {})
  | (s, true) => (s, { success := true, requestMore := full || s.downloadState = .redownload })

def processRedownload : HeadersSyncState × ProcessingResult :=
  match validateEach (validateAndStoreRedownloadedHeader getHash C) s headers with
  | (s, false) => (s, {})
  | (s, true) =>
    let (s, released) := popHeadersReadyForAcceptance getHash C s
    (s, { powValidatedHeaders := released
          success := true
          requestMore := !(s.redownloadedHeaders.isEmpty && s.processAllRemainingHeaders) && full })

/-- `if (!(ret.success && ret.request_more)) Finalize();`. -/
def finish : HeadersSyncState × ProcessingResult → HeadersSyncState × ProcessingResult
  | (s, ret) => if ret.success && ret.requestMore then (s, ret) else (finalize s, ret)

def processNextHeaders : HeadersSyncState × ProcessingResult :=
  if headers.isEmpty then (s, {})
  else
    match s.downloadState with
    | .final => (s, {})
    | .presync => finish (processPresync getHash C s headers full)
    | .redownload => finish (processRedownload getHash C s headers full)

end HeadersSync

end Quarlcoin
