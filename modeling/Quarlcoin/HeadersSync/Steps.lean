import Quarlcoin.Chain.Work
import Quarlcoin.Common.Indexed
import Quarlcoin.HeadersSync.Model
/-!
# Low-work header sync — what one header does

Between two headers a sync is described by the headers it has gone through (`Presyncing`,
`Redownloading`). Each of the functions on a single header is inverted once here.
-/

namespace Quarlcoin

open Arith Quarlcoin.Pow Indexed List BaseUint Nat Int64

namespace HeadersSync

variable (getHash : BlockHeader → Uint256) (C : SyncConfig)

/-! ## What the fields stand for -/

/-- The last header of a chain built on the start. -/
def tip (hs : List BlockHeader) : BlockHeader := hs.getLastD C.chainStart.header

/-- A header names its parent's hash. -/
def Link (_ : ℕ) (parent header : BlockHeader) : Prop := header.hashPrevBlock = getHash parent

/-- The height of the header at position `i` of a chain on the start. -/
def heightAt (i : ℕ) : Int64 := ofNat (C.chainStart.nHeight + i)

/-- The height presync computes for it, narrowed to an `int` at every step. -/
def presyncHeight : ℕ → Int64
  | 0 => ofNat C.chainStart.nHeight
  | i + 1 => nextHeight (presyncHeight i)

/-- The difficulty rule for a child of the header at position `i`. -/
def Permitted (height : ℕ → Int64) (i : ℕ) (parent header : BlockHeader) : Prop :=
  permittedDifficultyTransition C.consensusParams (height i) parent.getBlockTime header.nBits = true

/-- The commitments to a chain on the start, in order. -/
def bitsOf (height : ℕ → Int64) (hs : List BlockHeader) : List Bool :=
  selectFrom (fun i => isCommitmentHeight C (height (i + 1))) (commitment getHash C) 0 hs

variable (s : HeadersSyncState)

/-- A sync in the first download, after the headers `pre`. -/
structure Presyncing (pre : List BlockHeader) : Prop where
  state : s.downloadState = .presync
  work : s.currentChainWork = chainWork C.chainStart.nChainWork pre
  last : s.lastHeaderReceived = tip C pre
  height : s.currentHeight = presyncHeight C pre.length
  commitments : s.headerCommitments = bitsOf getHash C (presyncHeight C) pre
  bounded : s.headerCommitments.length ≤ C.maxCommitments
  difficulty : IChain (Permitted C (presyncHeight C)) 0 C.chainStart.header pre
  buffer : s.redownloadedHeaders = []
  all : s.processAllRemainingHeaders = false

/-- The second download: `pre` was presynced, `out` has been handed out and `buf` is buffered. -/
structure Redownloading (pre out buf : List BlockHeader) : Prop where
  state : s.downloadState = .redownload
  buffer : s.redownloadedHeaders = buf.map CompressedHeader.ofHeader
  lastHash : s.redownloadBufferLastHash = getHash (tip C (out ++ buf))
  firstPrevHash : s.redownloadBufferFirstPrevHash = getHash (tip C out)
  lastHeight : s.redownloadBufferLastHeight = heightAt C (out ++ buf).length
  work : s.redownloadChainWork = chainWork C.chainStart.nChainWork (out ++ buf)
  linked : IChain (Link getHash) 0 C.chainStart.header (out ++ buf)
  difficulty : IChain (Permitted C (heightAt C)) 0 C.chainStart.header (out ++ buf)
  commitments : s.processAllRemainingHeaders = false →
    bitsOf getHash C (presyncHeight C) pre =
      bitsOf getHash C (heightAt C) (out ++ buf) ++ s.headerCommitments
  bounded : s.headerCommitments.length ≤ C.maxCommitments
  reached : s.processAllRemainingHeaders = true →
    C.minimumRequiredWork.toNat ≤ claimedWork C.chainStart.nChainWork (out ++ buf)
  pending : s.processAllRemainingHeaders = false → out ++ buf ≠ [] →
    (chainWork C.chainStart.nChainWork (out ++ buf)).toNat < C.minimumRequiredWork.toNat
  /-- The buffer only runs empty before the first header is in. -/
  fresh : buf = [] → out = []

variable {getHash} {C}

@[simp] theorem tip_concat (hs : List BlockHeader) (h : BlockHeader) : tip C (hs ++ [h]) = h := by
  simp [tip]

theorem bitsOf_concat (height : ℕ → Int64) (hs : List BlockHeader) (h : BlockHeader) :
    bitsOf getHash C height (hs ++ [h]) = bitsOf getHash C height hs ++
      (if isCommitmentHeight C (height (hs.length + 1)) then [commitment getHash C h] else []) := by
  rw [bitsOf, selectFrom_concat, zero_add]
  rfl

theorem heightAt_succ (i : ℕ) : heightAt C i + 1 = heightAt C (i + 1) :=
  (ofNat_add (C.chainStart.nHeight + i) 1).symm

/-! ## The loop over a message -/

section

variable {step : HeadersSyncState → BlockHeader → HeadersSyncState × Bool}
  {Inv : HeadersSyncState → List BlockHeader → Prop}

/-- **A message that goes through preserves what each header preserves.** -/
theorem validateEach_inv (hstep : ∀ s l h s', Inv s l → step s h = (s', true) → Inv s' (l ++ [h]))
    {s s' : HeadersSyncState} {l hs : List BlockHeader} (hinv : Inv s l)
    (hok : validateEach step s hs = (s', true)) : Inv s' (l ++ hs) := by
  induction hs generalizing s l with
  | nil =>
    obtain rfl : s = s' := congrArg Prod.fst hok
    rwa [append_nil]
  | cons h hs ih =>
    rw [validateEach] at hok
    split at hok
    · rename_i t heq
      rw [append_cons]
      exact ih (hstep s l h t hinv heq) hok
    · cases hok

/-- **A message goes through if each of its headers does.** `P` says what
the headers so far must satisfy for the last of them to pass. -/
theorem validateEach_ok {P : List BlockHeader → Prop} (hP : ∀ l l', P (l ++ l') → P l)
    (hstep : ∀ s l h, Inv s l → P (l ++ [h]) → ∃ s', step s h = (s', true) ∧ Inv s' (l ++ [h]))
    {s : HeadersSyncState} {l hs : List BlockHeader} (hinv : Inv s l) (hall : P (l ++ hs)) :
    ∃ s', validateEach step s hs = (s', true) := by
  induction hs generalizing s l with
  | nil => exact ⟨s, rfl⟩
  | cons h hs ih =>
    rw [append_cons] at hall
    obtain ⟨t, heq, ht⟩ := hstep s l h hinv (hP _ _ hall)
    rw [validateEach, heq]
    exact ih ht hall

end

/-! ## A header in presync -/

variable (getHash C) in
/-- What headers must satisfy to pass presync. -/
structure PresyncOk (hs : List BlockHeader) : Prop where
  difficulty : IChain (Permitted C (presyncHeight C)) 0 C.chainStart.header hs
  bounded : (bitsOf getHash C (presyncHeight C) hs).length ≤ C.maxCommitments

theorem PresyncOk.left {l l' : List BlockHeader} (h : PresyncOk getHash C (l ++ l')) :
    PresyncOk getHash C l where
  difficulty := (iChain_append.1 h.difficulty).1
  bounded := by
    have hbounded := h.bounded
    rw [bitsOf, selectFrom_append, length_append] at hbounded
    exact Nat.le_of_add_right_le hbounded

variable {s : HeadersSyncState} {pre : List BlockHeader}

section

variable (hs : Presyncing getHash C s pre)
include hs

theorem Presyncing.bits_concat (h : BlockHeader) :
    (if isCommitmentHeight C (nextHeight s.currentHeight) = true then
        s.headerCommitments ++ [commitment getHash C h] else s.headerCommitments) =
      bitsOf getHash C (presyncHeight C) (pre ++ [h]) := by
  rw [bitsOf_concat, ← hs.commitments, hs.height, presyncHeight]
  split <;> simp

theorem Presyncing.permitted_iff (h : BlockHeader) :
    permittedDifficultyTransition C.consensusParams s.currentHeight
        s.lastHeaderReceived.getBlockTime h.nBits = true ↔
      IChain (Permitted C (presyncHeight C)) 0 C.chainStart.header (pre ++ [h]) := by
  rw [iChain_concat, zero_add, hs.height, hs.last]
  exact ⟨fun hp => ⟨hs.difficulty, hp⟩, fun hp => hp.2⟩

theorem Presyncing.header_next {h : BlockHeader} {s' : HeadersSyncState}
    (hok : validateAndProcessSingleHeader getHash C s h = (s', true)) :
    Presyncing getHash C s' (pre ++ [h]) := by
  unfold validateAndProcessSingleHeader at hok
  rw [if_neg (not_not_intro hs.state)] at hok
  split at hok
  · cases hok
  rename_i hperm
  dsimp only at hok
  rw [hs.bits_concat h] at hok
  split_ifs at hok with hfit
  · cases hok
  cases hok
  refine
    { hs with
      work := by rw [chainWork_concat, ← hs.work]
      last := (tip_concat pre h).symm
      height := by rw [length_append, length_singleton, presyncHeight, ← hs.height]
      commitments := rfl
      bounded := ?_
      difficulty := (hs.permitted_iff h).1 (not_not.1 hperm) }
  -- where no commitment was added, the old ones were within bounds
  by_cases hc : isCommitmentHeight C (nextHeight s.currentHeight) = true
  · exact Nat.le_of_not_lt fun hlt => hfit ⟨hc, hlt⟩
  · have hbits := hs.bits_concat h
    rw [if_neg hc] at hbits
    exact hbits ▸ hs.bounded

/-- **A header in presync** passes if its difficulty is permitted and its
commitment still fits. -/
theorem Presyncing.header_ok {h : BlockHeader} (hok : PresyncOk getHash C (pre ++ [h])) :
    ∃ s', validateAndProcessSingleHeader getHash C s h = (s', true) ∧
      Presyncing getHash C s' (pre ++ [h]) := by
  obtain ⟨s', heq⟩ : ∃ s', validateAndProcessSingleHeader getHash C s h = (s', true) := by
    unfold validateAndProcessSingleHeader
    rw [if_neg (not_not_intro hs.state),
      if_neg (not_not_intro ((hs.permitted_iff h).2 hok.difficulty))]
    dsimp only
    rw [hs.bits_concat h, if_neg fun hover => Nat.not_le_of_lt hover.2 hok.bounded]
    exact ⟨_, rfl⟩
  exact ⟨s', heq, hs.header_next heq⟩

end

/-! ## A header in redownload -/

section

variable {s : HeadersSyncState} {pre out buf : List BlockHeader}

section

variable (hs : Redownloading getHash C s pre out buf)
include hs

/-- **The parent's time is the one used**, as long as the buffer only runs
empty at the start. -/
theorem Redownloading.previousTime_eq : previousTime C s = (tip C (out ++ buf)).nTime := by
  unfold previousTime
  rw [hs.buffer, getLast?_map]
  rcases eq_nil_or_concat' buf with rfl | ⟨buf, last, rfl⟩
  · rw [hs.fresh rfl]
    rfl
  · rw [← append_assoc, tip_concat, getLast?_concat]
    rfl

theorem Redownloading.permitted_iff (h : BlockHeader) :
    permittedDifficultyTransition C.consensusParams (s.redownloadBufferLastHeight + 1 - 1)
        (getBlockTime (previousTime C s)) h.nBits = true ↔
      IChain (Permitted C (heightAt C)) 0 C.chainStart.header (out ++ buf ++ [h]) := by
  rw [iChain_concat, zero_add, hs.previousTime_eq, Int64.add_sub_cancel, hs.lastHeight]
  exact ⟨fun hp => ⟨hs.difficulty, hp⟩, fun hp => hp.2⟩

theorem Redownloading.link_iff (h : BlockHeader) : h.hashPrevBlock = s.redownloadBufferLastHash ↔
      IChain (Link getHash) 0 C.chainStart.header (out ++ buf ++ [h]) := by
  rw [iChain_concat, hs.lastHash]
  exact ⟨fun hl => ⟨hs.linked, hl⟩, fun hl => hl.2⟩

end

variable {h : BlockHeader}

/-- What the commitment check leaves when it passes: the queue, moved on by
one where the header had a commitment. -/
theorem checkCommitment_ok {t t' : HeadersSyncState} {height : Int64}
    (hok : checkCommitment getHash C t height h = (t', true)) :
    ∃ rest, t' = { t with headerCommitments := rest } ∧
      rest.length ≤ t.headerCommitments.length ∧
      (t.processAllRemainingHeaders = false → t.headerCommitments =
        (if isCommitmentHeight C height then [commitment getHash C h] else []) ++ rest) := by
  unfold checkCommitment at hok
  split_ifs at hok with hcheck
  · split at hok
    · cases hok
    rename_i expected rest heq
    obtain ⟨rfl, heq'⟩ := Prod.mk.inj hok
    refine ⟨rest, rfl, by simp [heq], fun _ => ?_⟩
    rw [if_pos hcheck.2, heq, eq_of_beq heq']
    rfl
  · cases hok
    refine ⟨t.headerCommitments, rfl, le_rfl, fun hall => ?_⟩
    rw [if_neg fun hc => hcheck ⟨by simp [hall], hc⟩]
    rfl

variable (getHash C) in
/-- What headers must satisfy to pass redownload: until there is enough work, commitments are
those of `pre`. -/
structure RedownloadOk (pre red : List BlockHeader) : Prop where
  linked : IChain (Link getHash) 0 C.chainStart.header red
  difficulty : IChain (Permitted C (heightAt C)) 0 C.chainStart.header red
  commitments : ∀ p, p <+: red →
    (chainWork C.chainStart.nChainWork p).toNat < C.minimumRequiredWork.toNat →
      bitsOf getHash C (heightAt C) p <+: bitsOf getHash C (presyncHeight C) pre

theorem RedownloadOk.left {l l' : List BlockHeader} (h : RedownloadOk getHash C pre (l ++ l')) :
    RedownloadOk getHash C pre l where
  linked := (iChain_append.1 h.linked).1
  difficulty := (iChain_append.1 h.difficulty).1
  commitments p hp := h.commitments p (hp.trans (prefix_append l l'))

section

variable (hs : Redownloading getHash C s pre out buf)
include hs

theorem Redownloading.header_next {s' : HeadersSyncState}
    (hok : validateAndStoreRedownloadedHeader getHash C s h = (s', true)) :
    Redownloading getHash C s' pre out (buf ++ [h]) := by
  unfold validateAndStoreRedownloadedHeader at hok
  rw [if_neg (not_not_intro hs.state)] at hok
  dsimp only at hok
  split at hok
  · cases hok
  rename_i hlink
  split at hok
  · cases hok
  rename_i hperm
  split at hok
  · cases hok
  rename_i heq
  cases hok
  obtain ⟨rest, rfl, hlen, hqueue⟩ := checkCommitment_ok heq
  rw [hs.lastHeight, heightAt_succ] at hqueue ⊢
  have hwork : s.redownloadChainWork.add (getBlockProof h) =
      chainWork C.chainStart.nChainWork (out ++ buf ++ [h]) := by
    rw [chainWork_concat, ← hs.work]
  -- the flag never goes down, and it goes up with the required work
  have hfalse : (trackWork C s h).processAllRemainingHeaders = false →
      s.processAllRemainingHeaders = false ∧
        (chainWork C.chainStart.nChainWork (out ++ buf ++ [h])).toNat <
          C.minimumRequiredWork.toNat := by
    intro hall
    obtain ⟨hbefore, hnow⟩ := Bool.or_eq_false_iff.1 hall
    rw [hwork] at hnow
    exact ⟨hbefore, Nat.lt_of_not_le fun hle => Bool.false_ne_true (hnow.symm.trans (le_iff.2 hle))⟩
  constructor
  all_goals try rw [← append_assoc]
  case state => exact hs.state
  case buffer =>
    rw [map_append, ← hs.buffer]
    rfl
  case lastHash =>
    rw [tip_concat]
    rfl
  case firstPrevHash => exact hs.firstPrevHash
  case lastHeight => exact congrArg (heightAt C) (by simp [add_assoc])
  case work => exact hwork
  case linked => exact (hs.link_iff h).1 (not_not.1 hlink)
  case difficulty => exact (hs.permitted_iff h).1 (not_not.1 hperm)
  case commitments =>
    intro hall
    rw [hs.commitments (hfalse hall).1, bitsOf_concat, append_assoc]
    exact congrArg _ (hqueue hall)
  case bounded => exact hlen.trans hs.bounded
  case reached =>
    intro htrue
    rcases Bool.or_eq_true_iff.1 htrue with hbefore | hnow
    · exact (hs.reached hbefore).trans (claimedWork_le_append _ _ _)
    · rw [hwork] at hnow
      exact (le_iff.1 hnow).trans (toNat_chainWork_le _ _)
  case pending => exact fun hall _ => (hfalse hall).2
  case fresh => simp

/-- **A header in redownload** passes if it continues the chain. -/
theorem Redownloading.header_ok (hok : RedownloadOk getHash C pre (out ++ buf ++ [h])) :
    ∃ s', validateAndStoreRedownloadedHeader getHash C s h = (s', true) ∧
      Redownloading getHash C s' pre out (buf ++ [h]) := by
  obtain ⟨t, ht⟩ : ∃ t, checkCommitment getHash C (trackWork C s h)
      (s.redownloadBufferLastHeight + 1) h = (t, true) := by
    rw [checkCommitment, hs.lastHeight, heightAt_succ]
    split_ifs with hcheck
    · have hall := hcheck.1
      rw [trackWork, hs.work, ← chainWork_concat] at hall
      simp only [Bool.or_eq_true, not_or, Bool.not_eq_true] at hall
      rw [← Bool.not_eq_true (le _ _), le_iff, not_le] at hall
      have hbits := hok.commitments _ (prefix_refl _) hall.2
      rw [bitsOf_concat, if_pos hcheck.2, hs.commitments hall.1, prefix_append_right_inj] at hbits
      obtain ⟨rest, hrest⟩ := hbits
      simp [trackWork, ← hrest]
    · exact ⟨_, rfl⟩
  have heq : validateAndStoreRedownloadedHeader getHash C s h =
      (storeRedownloaded getHash t (s.redownloadBufferLastHeight + 1) h, true) := by
    unfold validateAndStoreRedownloadedHeader
    rw [if_neg (not_not_intro hs.state)]
    rw [if_neg (not_not_intro ((hs.link_iff h).2 hok.linked)),
      if_neg (not_not_intro ((hs.permitted_iff h).2 hok.difficulty)), ht]
  exact ⟨_, heq, hs.header_next heq⟩

end

end

end HeadersSync

end Quarlcoin
