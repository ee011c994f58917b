import Mathlib.Data.Nat.Bitwise
import Quarlcoin.Chain.Fork
import Quarlcoin.Consensus.TxVerify
/-!
# Lock times, in a script and in a block

`CheckLockTime` and `CheckSequence` of `script/interpreter.cpp` compare a number of a script
with the transaction that spends; `IsFinalTx` and the sequence locks compare the transaction
with its block. Together they make the block wait for the script.
-/

namespace Quarlcoin

open Arith Option BlockHeader List Nat

/-- An `unsigned int` as an `int64_t`. -/
def wide (n : UInt32) : Int64 := n.toUInt64.toInt64

variable (txTo : Transaction)

/-- `CheckLockTime`, for input `nIn`. -/
def checkLockTime (nIn : ℕ) (nLockTime : Int64) : Bool :=
  let threshold := Int64.ofNat lockTimeThreshold
  if ¬ ((wide txTo.nLockTime < threshold ∧ nLockTime < threshold) ∨
      (wide txTo.nLockTime ≥ threshold ∧ nLockTime ≥ threshold)) then false
  else if nLockTime > wide txTo.nLockTime then false
  else (txTo.vin[nIn]?).any fun txin => txin.nSequence != sequenceFinal

/-- The bits of a sequence number that `CheckSequence` compares. -/
def nLockTimeMask : UInt32 := sequenceLocktimeTypeFlag ||| sequenceLocktimeMask

/-- `CheckSequence`, for an input of a transaction of this version. -/
def checkInputSequence (version : UInt32) (txin : TxIn) (nSequence : Int64) : Bool :=
  let txToSequence := wide txin.nSequence
  if version < 2 then false
  else if txToSequence &&& wide sequenceLocktimeDisableFlag ≠ 0 then false
  else
    let txToSequenceMasked := txToSequence &&& wide nLockTimeMask
    let nSequenceMasked := nSequence &&& wide nLockTimeMask
    if ¬ ((txToSequenceMasked < wide sequenceLocktimeTypeFlag ∧
          nSequenceMasked < wide sequenceLocktimeTypeFlag) ∨
        (txToSequenceMasked ≥ wide sequenceLocktimeTypeFlag ∧
          nSequenceMasked ≥ wide sequenceLocktimeTypeFlag)) then false
    else if nSequenceMasked > txToSequenceMasked then false
    else true

/-- `CheckSequence`, for input `nIn`. -/
def checkSequence (nIn : ℕ) (nSequence : Int64) : Bool :=
  (txTo.vin[nIn]?).any fun txin => checkInputSequence txTo.version txin nSequence

/-! ## Absolute locks -/

theorem toNat_toUInt64_wide (n : UInt32) : (wide n).toUInt64.toNat = n.toNat := by
  rw [wide, UInt64.toUInt64_toInt64, UInt32.toNat_toUInt64]

variable {n : Int64} {nIn : ℕ} {tx : Transaction}

theorem toInt_of_lt (h : n.toUInt64.toNat < 2 ^ 63) : n.toInt = n.toUInt64.toNat := by
  have hcond : n.toInt = if 2 * n.toUInt64.toNat < 2 ^ 64 then (n.toUInt64.toNat : ℤ)
      else n.toUInt64.toNat - 2 ^ 64 := BitVec.toInt_eq_toNat_cond n.toBitVec
  rw [hcond, if_pos (by omega)]

theorem toInt_wide (n : UInt32) : (wide n).toInt = n.toNat := by
  have hlt := n.toNat_lt
  rw [toInt_of_lt (by rw [toNat_toUInt64_wide]; omega), toNat_toUInt64_wide]

/-- **What `CheckLockTime` compares.** -/
theorem checkLockTime_eq_true {txTo : Transaction} (h : checkLockTime txTo nIn n = true) :
    n.toInt ≤ txTo.nLockTime.toNat ∧
      (n.toInt < lockTimeThreshold ↔ txTo.nLockTime.toNat < lockTimeThreshold) ∧
      ∃ txin ∈ txTo.vin, txin.nSequence ≠ sequenceFinal := by
  have hthreshold : (Int64.ofNat lockTimeThreshold).toInt = lockTimeThreshold := rfl
  rw [checkLockTime] at h
  simp only [Int64.lt_iff_toInt_lt, Int64.le_iff_toInt_le, toInt_wide] at h
  split at h
  · cases h
  split at h
  · cases h
  obtain ⟨txin, htxin, hseq⟩ := (any_eq_true _ _).1 h
  exact ⟨by omega, by omega, txin, mem_of_getElem? htxin, by simpa using hseq⟩

/-- **A final transaction with an input that is not final** has its lock time
behind it. -/
theorem isFinalTx_of_mem {H : ℕ} {T : Int64} {txin : TxIn} (hfinal : isFinalTx tx H T = true)
    (htxin : txin ∈ tx.vin) (hseq : txin.nSequence ≠ sequenceFinal) :
    tx.nLockTime.toNat = 0 ∨ (tx.nLockTime.toNat : ℤ) <
      if tx.nLockTime.toNat < lockTimeThreshold then (H : ℤ) else T.toInt := by
  have hall : (tx.vin.all fun txin => txin.nSequence == sequenceFinal) = false := by
    rw [← Bool.not_eq_true, List.all_eq_true]
    exact fun hall => hseq (eq_of_beq (hall txin htxin))
  rw [isFinalTx, hall] at hfinal
  rcases eq_or_ne tx.nLockTime 0 with hzero | hne
  · exact .inl (congrArg UInt32.toNat hzero)
  · rw [if_neg hne] at hfinal
    exact .inr (by_contra fun hlt => absurd ((if_neg hlt).symm.trans hfinal) (by simp))

/-- **An absolute lock of a script** holds for the block: a height is below the
height of the block and a time before its cutoff. -/
theorem lt_of_checkLockTime {H : ℕ} {T : Int64} (hH : 1 ≤ H)
    (hcheck : checkLockTime tx nIn n = true) (hfinal : isFinalTx tx H T = true) :
    (n.toInt < lockTimeThreshold → n.toInt < H) ∧
      (lockTimeThreshold ≤ n.toInt → n.toInt < T.toInt) := by
  obtain ⟨hle, hkind, txin, htxin, hseq⟩ := checkLockTime_eq_true hcheck
  have hlock := isFinalTx_of_mem hfinal htxin hseq
  constructor
  · omega
  · intro htime
    have hge : ¬ tx.nLockTime.toNat < lockTimeThreshold := fun h => absurd (hkind.2 h) (by omega)
    rw [lockTimeThreshold] at htime
    omega

/-! ## Relative locks -/

variable (bits : ℕ)

/-- The number of blocks, or of 512 seconds, that a sequence number asks for. -/
def relativeLock : ℕ := bits &&& sequenceLocktimeMask.toNat

/-- The sequence number asks for time. -/
def locksByTime : Bool := bits.testBit 22

theorem relativeLock_lt : relativeLock bits < 2 ^ 16 :=
  lt_of_le_of_lt and_le_right (by decide)

theorem and_nLockTimeMask :
    bits &&& nLockTimeMask.toNat = (locksByTime bits).toNat * 2 ^ 22 + relativeLock bits := by
  have hlow : relativeLock bits < 2 ^ 22 := (relativeLock_lt bits).trans (by decide)
  have hmask : nLockTimeMask.toNat = 2 ^ 22 ||| sequenceLocktimeMask.toNat := by decide
  rw [hmask, and_or_distrib_left, and_two_pow, locksByTime, ← relativeLock,
    ← shiftLeft_eq, shiftLeft_add_eq_or_of_lt hlow]

/-- **The sequence number of an input** in the terms of the locks. -/
theorem sequence_fields (nSequence : UInt32) :
    (nSequence &&& sequenceLocktimeTypeFlag ≠ 0 ↔ locksByTime nSequence.toNat = true) ∧
    (nSequence &&& sequenceLocktimeMask).toNat = relativeLock nSequence.toNat ∧
    ((nSequence &&& sequenceLocktimeMask) <<< sequenceLocktimeGranularity).toNat =
      512 * relativeLock nSequence.toNat := by
  have hlow : (nSequence &&& sequenceLocktimeMask).toNat = relativeLock nSequence.toNat :=
    UInt32.toNat_and ..
  refine ⟨?_, hlow, ?_⟩
  · rw [Ne, ← UInt32.toNat_inj, UInt32.toNat_and,
      show sequenceLocktimeTypeFlag.toNat = 2 ^ 22 from rfl, and_two_pow, locksByTime]
    cases nSequence.toNat.testBit 22 <;> simp
  · have hlt := relativeLock_lt nSequence.toNat
    rw [UInt32.toNat_shiftLeft, show sequenceLocktimeGranularity.toNat % 32 = 9 from rfl]
    omega

theorem toInt_and_nLockTimeMask (n : Int64) : (n &&& wide nLockTimeMask).toInt =
      (locksByTime n.toUInt64.toNat).toNat * 2 ^ 22 + relativeLock n.toUInt64.toNat := by
  have hand : (n &&& wide nLockTimeMask).toUInt64.toNat =
      n.toUInt64.toNat &&& nLockTimeMask.toNat := by
    exact UInt64.toNat_and ..
  have hlt : n.toUInt64.toNat &&& nLockTimeMask.toNat < 2 ^ 63 :=
    lt_of_le_of_lt and_le_right (by decide)
  rw [toInt_of_lt (by rw [hand]; exact hlt), hand, and_nLockTimeMask]
  rfl

/-- **What `CheckSequence` compares.** -/
theorem checkInputSequence_eq_true {version : UInt32} {txin : TxIn}
    (h : checkInputSequence version txin n = true) :
    2 ≤ version ∧ txin.nSequence &&& sequenceLocktimeDisableFlag = 0 ∧
      locksByTime n.toUInt64.toNat = locksByTime txin.nSequence.toNat ∧
      relativeLock n.toUInt64.toNat ≤ relativeLock txin.nSequence.toNat := by
  rw [checkInputSequence] at h
  dsimp only at h
  split at h
  · cases h
  rename_i hversion
  split at h
  · cases h
  rename_i hdisable
  split at h
  · cases h
  rename_i hkind
  split at h
  · cases h
  rename_i hle
  have hflag : (wide sequenceLocktimeTypeFlag).toInt = 2 ^ 22 := rfl
  simp only [Int64.lt_iff_toInt_lt, Int64.le_iff_toInt_le,
    toInt_and_nLockTimeMask, toNat_toUInt64_wide] at hkind hle
  have hlt := relativeLock_lt n.toUInt64.toNat
  have hlt' := relativeLock_lt txin.nSequence.toNat
  refine ⟨UInt32.not_lt.1 hversion, ?_, ?_⟩
  · rw [not_not] at hdisable
    have hbits := congrArg (fun n : Int64 => n.toUInt64.toNat) hdisable
    refine UInt32.toNat_inj.1 ?_
    exact hbits
  · generalize locksByTime n.toUInt64.toNat = byTime at hkind hle ⊢
    generalize locksByTime txin.nSequence.toNat = byTime' at hkind hle ⊢
    cases byTime <;> cases byTime' <;>
      simp only [Bool.toNat_true, Bool.toNat_false] at hkind hle <;>
      first | omega | exact ⟨rfl, by omega⟩

/-- **What the loop collects**: the locks only grow, and cover every input whose
sequence number is not disabled. -/
theorem sequenceLocksLoop_covers {m : ChainstateManager} {block : Uint256}
    {inputs : List (TxIn × ℕ)} {locks locks' : ℤ × ℤ}
    (h : sequenceLocksLoop m block inputs locks = .ok locks') :
    (locks.1 ≤ locks'.1 ∧ locks.2 ≤ locks'.2) ∧
    ∀ p ∈ inputs, p.1.nSequence &&& sequenceLocktimeDisableFlag = 0 →
      (locksByTime p.1.nSequence.toNat = false →
        (p.2 : ℤ) + relativeLock p.1.nSequence.toNat - 1 ≤ locks'.1) ∧
      (locksByTime p.1.nSequence.toNat = true →
        ∃ ancestor, m.getAncestor block (p.2 - 1) = some ancestor ∧
          (m.getMedianTimePast ancestor).toInt + 512 * relativeLock p.1.nSequence.toNat - 1 ≤
            locks'.2) := by
  induction inputs generalizing locks with
  | nil =>
    obtain rfl := Except.ok.inj h
    exact ⟨⟨le_rfl, le_rfl⟩, fun p hp => absurd hp not_mem_nil⟩
  | cons p inputs ih =>
    obtain ⟨txin, nCoinHeight⟩ := p
    obtain ⟨nMinHeight, nMinTime⟩ := locks
    obtain ⟨hkind, hwait, hseconds⟩ := sequence_fields txin.nSequence
    rw [sequenceLocksLoop] at h
    split at h
    · rename_i hdisable
      obtain ⟨hgrow, hrest⟩ := ih h
      refine ⟨hgrow, forall_mem_cons.2 ⟨fun h => absurd h hdisable, hrest⟩⟩
    split_ifs at h with htype
    · rw [hkind] at htype
      split at h
      · cases h
      rename_i ancestor hancestor
      obtain ⟨⟨hgrow, hgrow'⟩, hrest⟩ := ih h
      refine ⟨⟨hgrow, by dsimp only; omega⟩, forall_mem_cons.2 ⟨fun _ => ⟨?_, ?_⟩, hrest⟩⟩
      · intro hfalse
        rw [htype] at hfalse
        cases hfalse
      · exact fun _ => ⟨ancestor, hancestor, by push_cast at hgrow'; dsimp only; omega⟩
    · rw [hkind, Bool.not_eq_true] at htype
      obtain ⟨⟨hgrow, hgrow'⟩, hrest⟩ := ih h
      refine ⟨⟨by dsimp only; omega, hgrow'⟩,
        forall_mem_cons.2 ⟨fun _ => ⟨fun _ => by dsimp only; omega, ?_⟩, hrest⟩⟩
      intro htrue
      rw [htype] at htrue
      cases htrue

/-- **The locks of scripts are locks of blocks.** If `CheckLockTime` passes and the transaction is
final in a block, the number is below the height or the cutoff of the block. If `CheckSequence`
and the sequence locks pass, the block is as many blocks, or 512 times as many seconds, above the
coin as the low bits say. -/
theorem scriptLocks_hold (m : ChainstateManager) (tx : Transaction) (nIn : ℕ) (n : Int64) :
    (∀ (H : ℕ) (T : Int64), 1 ≤ H → checkLockTime tx nIn n = true → isFinalTx tx H T = true →
      (n.toInt < lockTimeThreshold → n.toInt < H) ∧
      (lockTimeThreshold ≤ n.toInt → n.toInt < T.toInt)) ∧
    ∀ (prevHeights : List ℕ) (hash : Uint256) (block : IndexEntry) (lockPair : ℤ × ℤ),
      m.blockIndex hash = some block → checkSequence tx nIn n = true →
      calculateSequenceLocks m tx true prevHeights hash = .ok lockPair →
      evaluateSequenceLocks m block lockPair = .ok true →
      ∃ nCoinHeight pprev, prevHeights[nIn]? = some nCoinHeight ∧ block.pprev = some pprev ∧
        (locksByTime n.toUInt64.toNat = false →
          nCoinHeight + relativeLock n.toUInt64.toNat ≤ block.nHeight) ∧
        (locksByTime n.toUInt64.toNat = true →
          ∃ ancestor, m.getAncestor hash (nCoinHeight - 1) = some ancestor ∧
            (m.getMedianTimePast ancestor).toInt + 512 * relativeLock n.toUInt64.toNat ≤
              (m.getMedianTimePast pprev).toInt) := by
  refine ⟨fun _ _ hH hcheck hfinal => lt_of_checkLockTime hH hcheck hfinal,
    fun prevHeights hash block lockPair _ hcheck hlocks heval => ?_⟩
  obtain ⟨txin, htxin, hseq⟩ := (any_eq_true _ _).1 hcheck
  obtain ⟨hversion, hdisable, hkind, hle⟩ := checkInputSequence_eq_true hseq
  rw [calculateSequenceLocks] at hlocks
  split at hlocks
  · cases hlocks
  rw [decide_eq_true hversion, Bool.true_and] at hlocks
  obtain ⟨-, hinputs⟩ := sequenceLocksLoop_covers hlocks
  obtain ⟨hnIn, -⟩ := List.getElem?_eq_some_iff.1 htxin
  obtain ⟨nCoinHeight, hheight⟩ : ∃ nCoinHeight, prevHeights[nIn]? = some nCoinHeight :=
    ⟨_, getElem?_eq_getElem (by omega)⟩
  have hzip : (tx.vin.zip prevHeights)[nIn]? = some (txin, nCoinHeight) :=
    getElem?_zip_eq_some.2 ⟨htxin, hheight⟩
  obtain ⟨hblocks, htime⟩ := hinputs _ (mem_of_getElem? hzip) hdisable
  dsimp only at hblocks htime
  rw [evaluateSequenceLocks] at heval
  split at heval
  · cases heval
  rename_i pprev hpprev
  have hboth := Except.ok.inj heval
  rw [Bool.and_eq_true, decide_eq_true_iff, decide_eq_true_iff] at hboth
  refine ⟨nCoinHeight, pprev, hheight, hpprev, fun hfalse => ?_, fun htrue => ?_⟩
  · have := hblocks (hkind ▸ hfalse)
    omega
  · obtain ⟨ancestor, hancestor, hmin⟩ := htime (hkind ▸ htrue)
    exact ⟨ancestor, hancestor, by omega⟩

/-! ### A lock that is not heard -/

def twoBlocks : ChainstateManager where
  blockIndex hash :=
    if hash = 1 then
      some { header := null, pprev := none, nHeight := 0, nChainWork := BaseUint.zero }
    else if hash = 2 then
      some { header := null, pprev := some 1, nHeight := 1, nChainWork := BaseUint.zero }
    else none
  failedValid _ := false
  bestHeader := some 2
  vChain := [1, 2]

def waitingTx : Transaction where
  vin := [⟨⟨5, 0⟩, [], 1, []⟩]
  vout := []
  version := 2
  nLockTime := 0

/-- A script that asks for a block, in the bits that count. -/
theorem waitingTx_lock : checkSequence waitingTx 0 65537 = true ∧
    calculateSequenceLocks twoBlocks waitingTx true [0] 2 = .ok (0, -1) ∧
    relativeLock (65537 : Int64).toUInt64.toNat = 1 ∧ ∀ block, twoBlocks.blockIndex 2 = some block →
      ∃ nCoinHeight pprev, [0][0]? = some nCoinHeight ∧ block.pprev = some pprev ∧
        nCoinHeight + 1 ≤ block.nHeight := by
  refine ⟨by decide, rfl, by decide, fun block hblock => ?_⟩
  obtain ⟨nCoinHeight, pprev, hheight, hpprev, hblocks, -⟩ :=
    (scriptLocks_hold twoBlocks waitingTx 0 65537).2 [0] 2 block (0, -1) hblock (by decide) rfl (by
      obtain rfl := some.inj hblock
      decide +kernel)
  exact ⟨nCoinHeight, pprev, hheight, hpprev, hblocks (by decide)⟩

/-- The script asks for more blocks, in bits that do not count, and the block
comes without them. -/
theorem waitingTx_not_heard : ∃ block lockPair, twoBlocks.blockIndex 2 = some block ∧
      checkSequence waitingTx 0 65537 = true ∧
      (65537 : Int64) &&& wide sequenceLocktimeDisableFlag = 0 ∧
      calculateSequenceLocks twoBlocks waitingTx true [0] 2 = .ok lockPair ∧
      evaluateSequenceLocks twoBlocks block lockPair = .ok true ∧
      (65537 : Int64) &&& wide sequenceLocktimeTypeFlag = 0 ∧
      ¬ (0 + (65537 : Int64).toInt ≤ block.nHeight) :=
  ⟨_, (0, -1), rfl, by decide, by decide, rfl, by decide +kernel, by decide, by decide⟩

/-! ## Along a chain -/

/-- **What is final stays final** in every later block of the chain. -/
theorem isFinalTx_of_onChain {ι : Type} (t : BlockTree ι) (htimes : t.TimesAboveMedian) {i j : ι}
    (hchain : t.OnChain i j) (tx : Transaction) {time time' : Int64}
    (htime : time.toInt = t.getMedianTimePast i) (htime' : time'.toInt = t.getMedianTimePast j)
    (h : isFinalTx tx (t.nHeight i + 1) time = true) :
    isFinalTx tx (t.nHeight j + 1) time' = true := by
  obtain ⟨n, hback⟩ := id hchain
  have hmedian := ((htimes.aboveMedianFrom 0).of_back hback (zero_le _)).1
  have hheight := BlockTree.nHeight_le_of_onChain hchain
  unfold isFinalTx at h ⊢
  rw [htime] at h
  rw [htime']
  split_ifs at h ⊢ <;> first | rfl | exact h | omega

/-- A lock on height 3, in the fourth block and in the seventh. -/
theorem isFinalTx_of_onChain_seven :
    let tx : Transaction := ⟨[⟨⟨0, 0⟩, [], 0, []⟩], [], 1, 3⟩
    isFinalTx tx 3 1 = false ∧ isFinalTx tx 4 2 = true ∧ isFinalTx tx 7 3 = true := by
  refine ⟨by decide, by decide, isFinalTx_of_onChain sevenBlocks ?_ (i := 3) (j := 6) ⟨3, rfl⟩ _
    (show (2 : Int64).toInt = _ by decide) (by decide) (by decide)⟩
  unfold BlockTree.TimesAboveMedian
  decide

end Quarlcoin
