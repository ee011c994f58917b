import Quarlcoin.Chain.Index
import Quarlcoin.Pow.Exact
/-!
# The time of a block template

`CreateNewBlock` of `node/miner.cpp` fills in the header of a template, and `UpdateTime`
moves its time. As long as the clock and the least time fit 32 bits, the header passes the
checks of `ContextualCheckBlockHeader`, however often it is updated.
-/

namespace Quarlcoin

open Arith Machine Quarlcoin.Pow ChainstateManager List

section

variable (params : Consensus.Params) (fPowAllowMinDifficultyBlocks : Bool)
  (m : ChainstateManager) (hash : Uint256) (prev : IndexEntry)

def getMinimumTime : Int64 :=
  max (m.getMedianTimePast hash + 1) (prev.header.getBlockTime - maxTimewarp)

def nextWork : UInt32 :=
  getNextWorkRequired params (Int64.ofNat prev.nHeight) prev.header.nTime prev.header.nBits

/-- What the assignment of a time to `nTime` keeps of it. -/
def narrowTime (t : Int64) : UInt32 := t.toUInt64.toUInt32

variable (block : BlockHeader)

/-- `UpdateTime` at the clock time `now`, with the seconds it returns. -/
def updateTime (now : Int64) : BlockHeader × Int64 :=
  let nOldTime := block.getBlockTime
  let nNewTime := max (getMinimumTime m hash prev) now
  ({ block with
      nTime := if nOldTime < nNewTime then narrowTime nNewTime else block.nTime
      nBits := if fPowAllowMinDifficultyBlocks then nextWork params prev else block.nBits },
    nNewTime - nOldTime)

variable (nVersion : Int32)

/-- The header that `CreateNewBlock` starts with. -/
def startHeader (now : Int64) : BlockHeader :=
  { BlockHeader.null with nVersion, nTime := narrowTime now, hashPrevBlock := hash }

/-- The header that it fills in; the clock is read once more in `UpdateTime`. -/
def createHeader (start now : Int64) : BlockHeader :=
  { (updateTime params fPowAllowMinDifficultyBlocks m hash prev (startHeader hash nVersion start)
      now).1 with
    nBits := nextWork params prev
    nNonce := 0 }

/-- The header after an `UpdateTime` at each of the clock times. -/
def updateTimes (clocks : List Int64) : BlockHeader :=
  clocks.foldl
    (fun b now => (updateTime params fPowAllowMinDifficultyBlocks m hash prev b now).1) block

/-- The last check of `ContextualCheckBlockHeader`. -/
def checkVersion : Except Rejection Unit :=
  if (block.nVersion < 2 ∧ deploymentActiveAfter prev.nHeight params.bip34Height) ∨
      (block.nVersion < 3 ∧ deploymentActiveAfter prev.nHeight params.bip66Height) ∨
      (block.nVersion < 4 ∧ deploymentActiveAfter prev.nHeight params.bip65Height) then
    .error ⟨.invalidHeader, "bad-version(0x" ++ formatHex block.nVersion ++ ")"⟩
  else .ok ()

/-- What every header of the template has: the bits, the parent, and a time from the least one to
`latest`. -/
structure Timely (latest : ℤ) : Prop where
  bits : block.nBits = nextWork params prev
  parent : block.hashPrevBlock = hash
  minimum : (getMinimumTime m hash prev).toInt ≤ block.getBlockTime.toInt
  latest : block.getBlockTime.toInt ≤ latest

end

variable {params : Consensus.Params} {flag : Bool} {m : ChainstateManager} {hash : Uint256}
  {prev : IndexEntry} {block : BlockHeader} {now : Int64} {latest : ℤ}

theorem toInt_max (a b : Int64) : (max a b).toInt = max a.toInt b.toInt := by
  rw [max_def (a := a.toInt), ← apply_ite]
  exact congrArg Int64.toInt (if_congr Int64.le_iff_toInt_le rfl rfl)

/-! ## The least time -/

theorem lt_of_mem_ancestorTimes (n : ℕ) (x : Option Uint256) :
    ∀ t ∈ m.ancestorTimes n x, t.toInt < 2 ^ 32 := by
  fun_induction ancestorTimes m n x with
  | case1 | case2 | case3 => simp
  | case4 n hash entry hentry ih =>
    rw [forall_mem_cons, BlockHeader.getBlockTime, toInt_getBlockTime]
    exact ⟨by have := entry.header.nTime.toNat_lt; omega, ih⟩

theorem toInt_getMedianTimePast_lt (m : ChainstateManager) (hash : Uint256) :
    (m.getMedianTimePast hash).toInt < 2 ^ 32 := by
  rw [getMedianTimePast]
  generalize hs : (m.ancestorTimes Links.nMedianTimeSpan (some hash)).mergeSort = sorted
  rw [getD_eq_getElem?_getD]
  cases hget : sorted[sorted.length / 2]? with
  | none => decide
  | some t =>
    have ht := mem_of_getElem? hget
    rw [← hs, mem_mergeSort] at ht
    exact lt_of_mem_ancestorTimes _ _ t ht

/-- The least time is above the median, and no timewarp. -/
theorem minimumTime_le (h : (getMinimumTime m hash prev).toInt ≤ block.getBlockTime.toInt) :
    ¬ block.getBlockTime ≤ m.getMedianTimePast hash ∧
      ¬ block.getBlockTime < prev.header.getBlockTime - maxTimewarp := by
  have hlt := toInt_getMedianTimePast_lt m hash
  have hle := (m.getMedianTimePast hash).le_toInt
  have hone : (1 : Int64).toInt = 1 := rfl
  rw [getMinimumTime, toInt_max, toInt_add_of_bounds (by omega) (by omega), hone, max_le_iff] at h
  rw [Int64.le_iff_toInt_le, Int64.lt_iff_toInt_lt]
  omega

/-! ## The header after any number of updates -/

theorem toNat_narrowTime {t : Int64} (h : 0 ≤ t.toInt) :
    (narrowTime t).toNat = t.toInt.toNat % 2 ^ 32 := by
  rw [narrowTime, UInt64.toNat_toUInt32, toNat_toUInt64_of_nonneg h]

/-- `UpdateTime` moves the time up to the clock and to the least time. -/
theorem toInt_updateTime (params : Consensus.Params) (flag : Bool)
    (hmin : (getMinimumTime m hash prev).toInt < 2 ^ 32) (hnow : now.toInt < 2 ^ 32) :
    (updateTime params flag m hash prev block now).1.getBlockTime.toInt =
      max block.getBlockTime.toInt (max (getMinimumTime m hash prev).toInt now.toInt) := by
  have hmax := toInt_max (getMinimumTime m hash prev) now
  have hold : block.getBlockTime.toInt = block.nTime.toNat := toInt_getBlockTime _
  rw [updateTime, BlockHeader.getBlockTime, toInt_getBlockTime]
  dsimp only
  split
  case isTrue hlt =>
    rw [Int64.lt_iff_toInt_lt] at hlt
    rw [toNat_narrowTime (by omega)]
    omega
  case isFalse hlt =>
    rw [Int64.lt_iff_toInt_lt] at hlt
    omega

theorem getBlockTime_createHeader {nVersion : Int32} {start : Int64} :
    (createHeader params flag m hash prev nVersion start now).getBlockTime =
      (updateTime params flag m hash prev (startHeader hash nVersion start) now).1.getBlockTime :=
  rfl

section

variable (hmin : (getMinimumTime m hash prev).toInt < 2 ^ 32)
  (hlatest : (getMinimumTime m hash prev).toInt ≤ latest)
include hmin hlatest

variable (h : Timely params m hash prev block latest)
include h

theorem Timely.updateTime (hnow : now.toInt < 2 ^ 32) (hle : now.toInt ≤ latest) :
    Timely params m hash prev (updateTime params flag m hash prev block now).1 latest where
  bits := by cases flag <;> [exact h.bits; rfl]
  parent := h.parent
  minimum := by
    rw [toInt_updateTime params flag hmin hnow]
    omega
  latest := by
    rw [toInt_updateTime params flag hmin hnow]
    exact max_le h.latest (max_le hlatest hle)

theorem Timely.updateTimes {clocks : List Int64}
    (hclocks : ∀ c ∈ clocks, c.toInt < 2 ^ 32 ∧ c.toInt ≤ latest) :
    Timely params m hash prev (updateTimes params flag m hash prev block clocks) latest := by
  induction clocks generalizing block with
  | nil => exact h
  | cons c clocks ih =>
    obtain ⟨hc, hrest⟩ := forall_mem_cons.1 hclocks
    exact ih (h.updateTime hmin hlatest hc.1 hc.2) hrest

omit h

theorem timely_createHeader {nVersion : Int32} {start : Int64} (hnow : now.toInt < 2 ^ 32)
    (hle : now.toInt ≤ latest) (hstart : (narrowTime start).toNat ≤ latest) :
    Timely params m hash prev (createHeader params flag m hash prev nVersion start now) latest where
  bits := rfl
  parent := rfl
  minimum := by
    rw [getBlockTime_createHeader, toInt_updateTime params flag hmin hnow]
    omega
  latest := by
    rw [getBlockTime_createHeader, toInt_updateTime params flag hmin hnow]
    exact max_le ((toInt_getBlockTime _).trans_le hstart) (max_le hlatest hle)

end

/-- Only the clock and the version are left to check. -/
theorem Timely.contextualCheckBlockHeader (h : Timely params m hash prev block latest) :
    contextualCheckBlockHeader params m now block prev =
      if now + maxFutureBlockTime < block.getBlockTime then .error ⟨.timeFuture, "time-too-new"⟩
      else checkVersion params prev block := by
  obtain ⟨hmedian, hwarp⟩ := minimumTime_le h.minimum
  simp only [Quarlcoin.contextualCheckBlockHeader, h.parent, h.bits, nextWork, ne_eq,
    not_true_eq_false, hmedian, hwarp, and_false, if_false]
  rfl

/-- **A template's header stays valid** after any number of updates: its difficulty, the median
time past, the timewarp rule, and the limit of the future. -/
theorem template_header_valid (params : Consensus.Params) (fPowAllowMinDifficultyBlocks : Bool)
    (m : ChainstateManager) (hash : Uint256) (prev : IndexEntry) (nVersion : Int32)
    (start clock now : Int64) (clocks : List Int64)
    (hmin : (getMinimumTime m hash prev).toInt < 2 ^ 32)
    (hclocks : ∀ c ∈ clock :: clocks, c.toInt < 2 ^ 32) :
    let block := updateTimes params fPowAllowMinDifficultyBlocks m hash prev
      (createHeader params fPowAllowMinDifficultyBlocks m hash prev nVersion start clock) clocks
    (contextualCheckBlockHeader params m now block prev =
      if now + maxFutureBlockTime < block.getBlockTime then .error ⟨.timeFuture, "time-too-new"⟩
      else checkVersion params prev block) ∧
    (0 ≤ start.toInt → now.toInt + maxFutureBlockTime.toInt < 2 ^ 63 →
      (getMinimumTime m hash prev).toInt ≤ now.toInt + maxFutureBlockTime.toInt →
      (∀ c ∈ start :: clock :: clocks, c.toInt ≤ now.toInt) →
      contextualCheckBlockHeader params m now block prev = checkVersion params prev block) := by
  intro block
  obtain ⟨hclock, hrest⟩ := forall_mem_cons.1 hclocks
  have hvalid : ∀ latest : ℤ, (getMinimumTime m hash prev).toInt ≤ latest →
      (narrowTime start).toNat ≤ latest → (∀ c ∈ clock :: clocks, c.toInt ≤ latest) →
      Timely params m hash prev block latest := by
    intro latest hlatest hstart hle
    obtain ⟨hle, hles⟩ := forall_mem_cons.1 hle
    exact (timely_createHeader hmin hlatest hclock hle hstart).updateTimes hmin hlatest
      fun c hc => ⟨hrest c hc, hles c hc⟩
  constructor
  · have hstart := (narrowTime start).toNat_lt
    exact (hvalid (2 ^ 32) hmin.le (by omega) fun c hc => (hclocks c hc).le)
      |>.contextualCheckBlockHeader
  · intro hpos hfits hfuture hle
    have hseven : maxFutureBlockTime.toInt = 7200 := rfl
    obtain ⟨hstart, hle⟩ := forall_mem_cons.1 hle
    have hmod := Nat.mod_le start.toInt.toNat (2 ^ 32)
    have htimely := hvalid _ hfuture (by rw [toNat_narrowTime hpos]; omega) fun c hc => by
      have := hle c hc
      omega
    have hlow := now.le_toInt
    rw [htimely.contextualCheckBlockHeader, if_neg]
    rw [Int64.lt_iff_toInt_lt, toInt_add_of_bounds (by omega) hfits]
    exact not_lt.2 htimely.latest

/-- The main network's genesis block in the index. -/
def genesisEntry : IndexEntry := ⟨mainGenesis.header, none, 0, mainGenesis.nChainWork⟩

def genesisIndex : ChainstateManager where
  blockIndex x := if x = mainParams.consensus.hashGenesisBlock then some genesisEntry else none
  failedValid _ := false
  bestHeader := some mainParams.consensus.hashGenesisBlock
  vChain := [mainParams.consensus.hashGenesisBlock]

def genesisTemplate (clock : Int64) : BlockHeader :=
  createHeader mainParams.consensus false genesisIndex mainParams.consensus.hashGenesisBlock
    genesisEntry 0x20000000 clock clock

theorem getMinimumTime_genesisIndex :
    genesisIndex.getMedianTimePast mainParams.consensus.hashGenesisBlock = 1785762002 ∧
    getMinimumTime genesisIndex mainParams.consensus.hashGenesisBlock genesisEntry =
      1785762003 := by
  have hmedian :
      genesisIndex.getMedianTimePast mainParams.consensus.hashGenesisBlock = 1785762002 := by
    simp [getMedianTimePast, Links.nMedianTimeSpan, ancestorTimes, genesisIndex, genesisEntry]
    rfl
  exact ⟨hmedian, by rw [getMinimumTime, hmedian]; rfl⟩

/-- A template that is updated twice in a hundred seconds. -/
theorem template_header_valid_genesis :
    contextualCheckBlockHeader mainParams.consensus genesisIndex 1785762200
      (updateTimes mainParams.consensus false genesisIndex mainParams.consensus.hashGenesisBlock
        genesisEntry (genesisTemplate 1785762100) [1785762150, 1785762200]) genesisEntry =
      .ok () := by
  have hmin := getMinimumTime_genesisIndex.2
  refine (template_header_valid mainParams.consensus false genesisIndex _ genesisEntry 0x20000000
    1785762100 1785762100 1785762200 [1785762150, 1785762200] (by rw [hmin]; decide) ?_).2
    (by decide) (by decide) (by rw [hmin]; decide) ?_
  all_goals
    simp only [forall_mem_cons, not_mem_nil, false_imp_iff, implies_true, and_true]
    decide

/-- **A clock that has left the field.** In the second after the 32 bits are used up, the
template's time starts from zero. -/
theorem template_time_wraps :
    contextualCheckBlockHeader mainParams.consensus genesisIndex 4294967296
      (genesisTemplate 4294967296) genesisEntry = .error ⟨.invalidHeader, "time-too-old"⟩ := by
  obtain ⟨hmedian, hmin⟩ := getMinimumTime_genesisIndex
  have htime : (genesisTemplate 4294967296).getBlockTime = 0 := by
    rw [genesisTemplate, createHeader, updateTime, hmin]
    rfl
  rw [contextualCheckBlockHeader, htime]
  exact (if_neg fun hne => hne rfl).trans (if_pos (hmedian ▸ by decide))

end Quarlcoin
