import Mathlib.Logic.Function.Basic
import Quarlcoin.Chain.Model
import Quarlcoin.Chain.Tree
/-!
# The block index — accepting headers

`AcceptBlockHeader` and what it calls. An entry of the index is found by its hash and points
to its parent by it; they form a tree on the genesis block (`WellFormed`).
-/

namespace Quarlcoin

open Arith Quarlcoin.Pow Function Option

/-- `BlockValidationResult`, without the value of a block not yet rejected. -/
inductive BlockValidationResult where
  | consensus
  | cachedInvalid
  | invalidHeader
  | mutated
  | missingPrev
  | invalidPrev
  | timeFuture
  | headerLowWork
  deriving DecidableEq

/-- What `state.Invalid` records. -/
structure Rejection where
  result : BlockValidationResult
  reason : String
  deriving DecidableEq

/-- An entry of the index, as `AddToBlockIndex` fills it in. -/
structure IndexEntry where
  header : BlockHeader
  pprev : Option Uint256
  nHeight : ℕ
  nChainWork : ArithUint256

/-- What `ChainstateManager` knows of headers; `failedValid` are those marked
`BLOCK_FAILED_VALID`, and `vChain` is the active chain. -/
structure ChainstateManager where
  blockIndex : Uint256 → Option IndexEntry
  failedValid : Uint256 → Bool
  bestHeader : Option Uint256
  vChain : List Uint256

namespace ChainstateManager

variable (m : ChainstateManager)

/-- The times of an entry and of the entries before it, at most `n` of them. -/
def ancestorTimes : ℕ → Option Uint256 → List Int64
  | 0, _ => []
  | _ + 1, none => []
  | n + 1, some hash =>
    match m.blockIndex hash with
    | none => []
    | some entry => entry.header.getBlockTime :: ancestorTimes n entry.pprev

variable (hash : Uint256)

def getMedianTimePast : Int64 :=
  let sorted := (m.ancestorTimes Links.nMedianTimeSpan (some hash)).mergeSort
  sorted.getD (sorted.length / 2) 0

/-- The steps to the parent that `GetAncestor` takes; the skip list is a shorter way. -/
def ancestorLoop : ℕ → Uint256 → Option Uint256
  | 0, hash => some hash
  | n + 1, hash => do ancestorLoop n (← (← m.blockIndex hash).pprev)

def getAncestor (height : ℕ) : Option Uint256 := do
  let entry ← m.blockIndex hash
  if entry.nHeight < height then none else m.ancestorLoop (entry.nHeight - height) hash

def activeContains : Bool :=
  match m.blockIndex hash with
  | none => false
  | some entry => m.vChain[entry.nHeight]? == some hash

def activeTip : Option IndexEntry := m.vChain.getLast?.bind m.blockIndex

/-- An entry as the code that holds a pointer to it reads it. -/
def lookupBlockIndex : Option BlockIndex :=
  (m.blockIndex hash).map fun entry =>
    { header := entry.header
      nHeight := entry.nHeight
      nChainWork := entry.nChainWork
      medianTimePast := m.getMedianTimePast hash }

def bestWork : Option ArithUint256 := m.bestHeader.bind fun hash =>
  (m.blockIndex hash).map IndexEntry.nChainWork

variable (block : BlockHeader)

/-- The entry `AddToBlockIndex` makes for a new header. -/
def newEntry : IndexEntry :=
  match m.blockIndex block.hashPrevBlock with
  | none =>
    { header := block, pprev := none, nHeight := 0
      nChainWork := BaseUint.zero.add (getBlockProof block) }
  | some prev =>
    { header := block, pprev := some block.hashPrevBlock, nHeight := prev.nHeight + 1
      nChainWork := prev.nChainWork.add (getBlockProof block) }

def addToBlockIndex : ChainstateManager :=
  match m.blockIndex hash with
  | some _ => m
  | none =>
    let entry := m.newEntry block
    { m with
      blockIndex := update m.blockIndex hash (some entry)
      bestHeader :=
        match m.bestWork with
        | none => some hash
        | some work => if work.lt entry.nChainWork then some hash else m.bestHeader }

end ChainstateManager

def maxTimewarp : Int64 := 600

/-- `DeploymentActiveAfter` for a buried deployment. -/
def deploymentActiveAfter (prevHeight : ℕ) (deploymentHeight : ℤ) : Bool :=
  deploymentHeight ≤ prevHeight + 1

/-- The conversion `%08x`. -/
def formatHex (v : Int32) : String :=
  let digits := Nat.toDigits 16 v.toUInt32.toNat
  String.ofList (List.replicate (8 - digits.length) '0' ++ digits)

section

variable (getHash getPoWHash : BlockHeader → Uint256) (params : Consensus.Params)

def checkBlockHeader (block : BlockHeader) : Except Rejection Unit :=
  if ¬ checkProofOfWorkImpl (getPoWHash block) block.nBits params then
    .error ⟨.invalidHeader, "high-hash"⟩
  else .ok ()

variable (m : ChainstateManager) (now : Int64) (block : BlockHeader)

def contextualCheckBlockHeader (prev : IndexEntry) : Except Rejection Unit :=
  let nHeight := prev.nHeight + 1
  if block.nBits ≠ getNextWorkRequired params (Int64.ofNat prev.nHeight) prev.header.nTime
      prev.header.nBits then .error ⟨.invalidHeader, "bad-diffbits"⟩
  else if block.getBlockTime ≤ m.getMedianTimePast block.hashPrevBlock then
    .error ⟨.invalidHeader, "time-too-old"⟩
  else if params.enforceBIP94 ∧ 0 < nHeight ∧
      block.getBlockTime < prev.header.getBlockTime - maxTimewarp then
    .error ⟨.invalidHeader, "time-timewarp-attack"⟩
  else if now + maxFutureBlockTime < block.getBlockTime then .error ⟨.timeFuture, "time-too-new"⟩
  else if (block.nVersion < 2 ∧ deploymentActiveAfter prev.nHeight params.bip34Height) ∨
      (block.nVersion < 3 ∧ deploymentActiveAfter prev.nHeight params.bip66Height) ∨
      (block.nVersion < 4 ∧ deploymentActiveAfter prev.nHeight params.bip65Height) then
    .error ⟨.invalidHeader, "bad-version(0x" ++ formatHex block.nVersion ++ ")"⟩
  else .ok ()

/-- The checks `AcceptBlockHeader` makes of a header it does not know. -/
def checkNewHeader : Except Rejection Unit := do
  checkBlockHeader getPoWHash params block
  match m.blockIndex block.hashPrevBlock with
  | none => .error ⟨.missingPrev, "prev-blk-not-found"⟩
  | some prev =>
    if m.failedValid block.hashPrevBlock then .error ⟨.invalidPrev, "bad-prevblk"⟩
    else contextualCheckBlockHeader params m now block prev

variable (minPowChecked : Bool)

/-- The end of `AcceptBlockHeader`. -/
def addHeader : ChainstateManager × Except Rejection Uint256 :=
  if ¬ minPowChecked then (m, .error ⟨.headerLowWork, "too-little-chainwork"⟩)
  else (m.addToBlockIndex (getHash block) block, .ok (getHash block))

/-- `AcceptBlockHeader`: the entry the header has or gets. -/
def acceptBlockHeader : ChainstateManager × Except Rejection Uint256 :=
  if getHash block ≠ params.hashGenesisBlock then
    match m.blockIndex (getHash block) with
    | some _ =>
      if m.failedValid (getHash block) then (m, .error ⟨.cachedInvalid, "duplicate-invalid"⟩)
      else (m, .ok (getHash block))
    | none =>
      match checkNewHeader getPoWHash params m now block with
      | .error e => (m, .error e)
      | .ok () => addHeader getHash m block minPowChecked
  else addHeader getHash m block minPowChecked

def acceptEach (now : Int64) (minPowChecked : Bool) :
    ChainstateManager → Option Uint256 → List BlockHeader →
      ChainstateManager × Except Rejection (Option Uint256)
  | m, pindex, [] => (m, .ok pindex)
  | m, _, header :: headers =>
    match acceptBlockHeader getHash getPoWHash params m now header minPowChecked with
    | (m, .error e) => (m, .error e)
    | (m, .ok hash) => acceptEach now minPowChecked m (some hash) headers

/-- Whether all headers were accepted, and the entry of the last one. -/
def processNewBlockHeaders (headers : List BlockHeader)
    (minPowChecked : Bool) : ChainstateManager × Except Rejection (Option Uint256) :=
  acceptEach getHash getPoWHash params now minPowChecked m none headers

end

/-! ## The tree of headers -/

/-- The index is a tree on the genesis block, where the active chain starts. -/
structure ChainstateManager.WellFormed (genesis : Uint256) (m : ChainstateManager) : Prop where
  root : ∃ entry, m.blockIndex genesis = some entry ∧ entry.nHeight = 0
  linked : ∀ hash entry, m.blockIndex hash = some entry → hash ≠ genesis →
    ∃ parent prev, entry.pprev = some parent ∧ m.blockIndex parent = some prev ∧
      entry.nHeight = prev.nHeight + 1
  active : m.vChain[0]? = some genesis
  known : ∀ hash ∈ m.vChain, ∃ entry, m.blockIndex hash = some entry

section

variable {getHash getPoWHash : BlockHeader → Uint256} {params : Consensus.Params}
  {m : ChainstateManager} {now : Int64} {block : BlockHeader} {minPowChecked : Bool}
  {genesis hash : Uint256} {pindex : Option Uint256} {headers : List BlockHeader}

theorem ChainstateManager.WellFormed.addToBlockIndex {prev : IndexEntry}
    (h : m.WellFormed genesis) (hprev : m.blockIndex block.hashPrevBlock = some prev) :
    (m.addToBlockIndex hash block).WellFormed genesis := by
  unfold ChainstateManager.addToBlockIndex
  split
  · exact h
  rename_i hnew
  have hkeep : ∀ {other entry}, m.blockIndex other = some entry →
      update m.blockIndex hash (some (m.newEntry block)) other = some entry := by
    intro other entry hother
    rw [update_of_ne, hother]
    rintro rfl
    rw [hnew] at hother
    exact absurd hother (by simp)
  obtain ⟨root, hroot, hzero⟩ := h.root
  refine ⟨⟨root, hkeep hroot, hzero⟩, fun other entry hother hne => ?_, h.active,
    fun other hother => (h.known other hother).imp fun _ => hkeep⟩
  by_cases heq : other = hash
  · -- the new entry points to its parent
    rw [heq] at hother
    dsimp only at hother
    rw [update_self, ChainstateManager.newEntry, hprev] at hother
    obtain rfl := some.inj hother
    exact ⟨block.hashPrevBlock, prev, rfl, hkeep hprev, rfl⟩
  · dsimp only at hother
    rw [update_of_ne heq] at hother
    obtain ⟨parent, prev', hpprev, hparent, hheight⟩ := h.linked other entry hother hne
    exact ⟨parent, prev', hpprev, hkeep hparent, hheight⟩

theorem checkNewHeader_ok (h : checkNewHeader getPoWHash params m now block = .ok ()) :
    ∃ prev, m.blockIndex block.hashPrevBlock = some prev := by
  cases hprev : m.blockIndex block.hashPrevBlock with
  | some prev => exact ⟨prev, rfl⟩
  | none =>
    unfold checkNewHeader at h
    rw [hprev] at h
    cases hpow : checkBlockHeader getPoWHash params block with
    | error e => rw [hpow] at h; exact absurd h (by simp [bind, Except.bind])
    | ok => rw [hpow] at h; exact absurd h (by simp [bind, Except.bind])

/-- **Accepting a header keeps the tree.** -/
theorem acceptBlockHeader_wellFormed (h : m.WellFormed params.hashGenesisBlock) :
    (acceptBlockHeader getHash getPoWHash params m now block minPowChecked).1.WellFormed
      params.hashGenesisBlock := by
  unfold acceptBlockHeader
  split
  · split
    · split <;> exact h
    · split
      · exact h
      · rename_i hok
        obtain ⟨prev, hprev⟩ := checkNewHeader_ok hok
        unfold addHeader
        split
        · exact h
        · exact h.addToBlockIndex hprev
  · rename_i hgenesis
    unfold addHeader
    split
    · exact h
    · obtain ⟨root, hroot, -⟩ := h.root
      rw [not_not.1 hgenesis, ChainstateManager.addToBlockIndex, hroot]
      exact h

theorem ChainstateManager.addToBlockIndex_known (m : ChainstateManager) (hash : Uint256)
    (block : BlockHeader) : ∃ entry,
    (m.addToBlockIndex hash block).blockIndex hash = some entry := by
  unfold ChainstateManager.addToBlockIndex
  split
  · rename_i entry hentry
    exact ⟨entry, hentry⟩
  · exact ⟨_, update_self ..⟩

theorem acceptBlockHeader_known
    (h : (acceptBlockHeader getHash getPoWHash params m now block minPowChecked).2 = .ok hash) :
    ∃ entry, (acceptBlockHeader getHash getPoWHash params m now block minPowChecked).1.blockIndex
      hash = some entry := by
  have hadd : (addHeader getHash m block minPowChecked).2 = .ok hash →
      ∃ entry, (addHeader getHash m block minPowChecked).1.blockIndex hash = some entry := by
    unfold addHeader
    split
    · exact fun hok => absurd hok (by simp)
    · intro hok
      obtain rfl := Except.ok.inj hok
      exact m.addToBlockIndex_known _ _
  unfold acceptBlockHeader at h ⊢
  split at h
  · rename_i hne
    rw [if_pos hne]
    split at h
    · rename_i entry hentry
      split at h
      · exact absurd h (by simp)
      · rename_i hvalid
        rw [if_neg hvalid]
        obtain rfl := Except.ok.inj h
        exact ⟨entry, hentry⟩
    · split at h
      · exact absurd h (by simp)
      · exact hadd h
  · rename_i hgenesis
    rw [if_neg hgenesis]
    exact hadd h

/-- **The loop keeps the tree**, and leaves the entry of the last header. -/
theorem acceptEach_wellFormed (h : m.WellFormed params.hashGenesisBlock) :
    (acceptEach getHash getPoWHash params now minPowChecked m pindex headers).1.WellFormed
      params.hashGenesisBlock := by
  induction headers generalizing m pindex with
  | nil => exact h
  | cons header headers ih =>
    have hone := @acceptBlockHeader_wellFormed getHash getPoWHash params m now header minPowChecked h
    rw [acceptEach]
    rcases heq : acceptBlockHeader getHash getPoWHash params m now header minPowChecked
      with ⟨m', _ | hash⟩
    · rw [heq] at hone
      exact hone
    · rw [heq] at hone
      exact ih hone

theorem acceptEach_known {pindexLast : Option Uint256}
    (hpindex : ∀ hash ∈ pindex, ∃ entry, m.blockIndex hash = some entry)
    (hok : (acceptEach getHash getPoWHash params now minPowChecked m pindex headers).2 =
      .ok pindexLast) (hne : headers = [] → pindex ≠ none) : ∃ hash entry, pindexLast = some hash ∧
      (acceptEach getHash getPoWHash params now minPowChecked m pindex headers).1.blockIndex hash =
        some entry := by
  induction headers generalizing m pindex with
  | nil =>
    obtain ⟨hash, rfl⟩ := ne_none_iff_exists'.1 (hne rfl)
    obtain ⟨entry, hentry⟩ := hpindex hash rfl
    obtain rfl := Except.ok.inj hok
    exact ⟨hash, entry, rfl, hentry⟩
  | cons header headers ih =>
    have hone := @acceptBlockHeader_known getHash getPoWHash params m now header minPowChecked
    rw [acceptEach] at hok ⊢
    rcases heq : acceptBlockHeader getHash getPoWHash params m now header minPowChecked
      with ⟨m', _ | hash⟩
    · rw [heq] at hok
      exact absurd hok (by simp)
    · rw [heq] at hok hone
      refine ih (fun hash' hhash => ?_) hok (fun _ => by simp)
      obtain rfl := some.inj hhash
      exact hone rfl

end

end Quarlcoin
