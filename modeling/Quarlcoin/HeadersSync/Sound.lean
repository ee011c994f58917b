import Quarlcoin.HeadersSync.Runs
/-!
# Low-work header sync — soundness

What no peer can get out of a sync, whatever it sends and however it cuts it. Presync
follows the hashes only from one message to the next; that each message is a chain its
caller checks.
-/

namespace Quarlcoin

open Arith Quarlcoin.Pow Indexed List BlockHeader

namespace HeadersSync

variable (getHash : BlockHeader → Uint256) (C : SyncConfig)

/-- A header on its parent, at position `i`: it names the parent's hash, and its bits are those
ASERT computes. -/
def AsertLink (i : ℕ) (parent header : BlockHeader) : Prop :=
  header.hashPrevBlock = getHash parent ∧
    (C.consensusParams.fPowNoRetargeting = false →
      header.nBits = calculateNextWorkRequired C.consensusParams (heightAt C i)
        parent.getBlockTime)

/-- A chain of such headers on the start. -/
def AsertChain (hs : List BlockHeader) : Prop :=
  IChain (AsertLink getHash C) 0 C.chainStart.header hs

variable (calls : List Call)

/-- The heights of all headers of a run fit an `int`. -/
def HeightsFit : Prop := C.chainStart.nHeight + (fed calls).length < 2 ^ 31

/-- **What holds of every run.** -/
structure SoundRun : Prop where
  /-- All headers handed out form one chain on the start. -/
  chain : AsertChain getHash C (returned getHash C calls)
  /-- Nothing is handed out unless presync saw a chain with enough work. -/
  presynced : returned getHash C calls ≠ [] → (∀ c ∈ calls, Continuous getHash c.1) →
    HeightsFit C calls → ∃ before, before <+: calls ∧
      (∀ p q, before = p ++ q → q ≠ [] → (run getHash C p).1.downloadState = .presync) ∧
      AsertChain getHash C (fed before) ∧
      C.minimumRequiredWork.toNat ≤ claimedWork C.chainStart.nChainWork (fed before)
  /-- What is handed out begins the redownloaded chain, and that chain has
  shown enough work itself, or it is deeper by the size of the buffer and
  its commitments are those presync took at the same heights. -/
  deep : returned getHash C calls ≠ [] → HeightsFit C calls → ∃ before after,
    before ++ after <+: calls ∧
      (∀ p q, before = p ++ q → q ≠ [] → (run getHash C p).1.downloadState = .presync) ∧
      RedownloadedBy getHash C before after ∧ AsertChain getHash C (fed after) ∧
      returned getHash C calls <+: fed after ∧
      (C.minimumRequiredWork.toNat ≤ claimedWork C.chainStart.nChainWork (fed after) ∨
        (returned getHash C calls).length + C.params.redownloadBufferSize ≤ (fed after).length ∧
          ∀ i, (C.chainStart.nHeight + (i + 1)) % C.params.commitmentPeriod = C.commitOffset →
            ∀ hi : i < (fed after).length, ∃ hi' : i < (fed before).length,
              commitment getHash C (fed after)[i] = commitment getHash C (fed before)[i])
  /-- What is kept between two calls is bounded. -/
  commitments_le : (run getHash C calls).1.headerCommitments.length ≤ C.maxCommitments
  buffer_le : (run getHash C calls).1.redownloadedHeaders.length ≤ C.params.redownloadBufferSize
  /-- From the end on, a call fails, returns nothing and changes nothing. -/
  final : ∀ p q, calls = p ++ q → (run getHash C p).1.downloadState = .final →
    (run getHash C calls).1 = (run getHash C p).1 ∧
      (run getHash C calls).2 =
        (run getHash C p).2 ++ List.replicate q.length ({} : ProcessingResult)

variable {getHash} {C}

theorem asertChain_of {hs : List BlockHeader}
    (hlink : IChain (Link getHash) 0 C.chainStart.header hs)
    (hperm : IChain (Permitted C (heightAt C)) 0 C.chainStart.header hs) :
    AsertChain getHash C hs := by
  refine (iChain_and.2 ⟨hlink, hperm⟩).imp fun i _ _ parent header h => ⟨h.1, fun hretarget => ?_⟩
  have hbits := h.2
  rw [Permitted, permittedDifficultyTransition, hretarget] at hbits
  exact eq_of_beq hbits

variable {pre : List BlockHeader} {calls : List Call}

theorem Sufficient.asertChain (h : Sufficient getHash C pre)
    (hlink : IChain (Link getHash) 0 C.chainStart.header pre)
    (hfit : C.chainStart.nHeight + pre.length < 2 ^ 31) : AsertChain getHash C pre :=
  asertChain_of hlink ((permitted_presyncHeight hfit).1 h.ok.difficulty)

theorem Sufficient.claimed (h : Sufficient getHash C pre) :
    C.minimumRequiredWork.toNat ≤ claimedWork C.chainStart.nChainWork pre :=
  h.work.trans (toNat_chainWork_le _ _)

theorem Released.asertChain {red out : List BlockHeader} (h : Released getHash C pre red out) :
    AsertChain getHash C red := asertChain_of h.linked h.difficulty

theorem run_final {p : List Call} (hfinal : (run getHash C p).1.downloadState = .final)
    (q : List Call) : run getHash C (p ++ q) = ((run getHash C p).1,
      (run getHash C p).2 ++ List.replicate q.length ({} : ProcessingResult)) := by
  have hcall : ∀ c : Call, processNextHeaders getHash C (run getHash C p).1 c.1 c.2 =
      ((run getHash C p).1, {}) := by
    intro c
    unfold processNextHeaders
    rw [hfinal]
    split <;> rfl
  induction q using reverseRecOn with
  | nil => simp
  | append_singleton q c ih =>
    rw [← append_assoc, run_concat, ih, runStep, hcall, length_append,
      length_singleton, replicate_succ', append_assoc]

theorem History.released (h : History getHash C calls) (hout : returned getHash C calls ≠ []) :
    ∃ before after, before ++ after <+: calls ∧ PresyncedBy getHash C before ∧
        RedownloadedBy getHash C before after ∧
        Released getHash C (fed before) (fed after) (returned getHash C calls) := by
  rcases h with ⟨-, hnone, -, -⟩ | ⟨before, after, buf, rfl, hpre, hphase, hs, hfed⟩ |
    ⟨before, after, rest, hcalls, -, hnone | ⟨hpre, hphase, hrel⟩⟩
  · exact absurd hnone hout
  · refine ⟨before, after, prefix_refl _, hpre, hphase, ?_⟩
    have hrel := hs.sync.releases hs.all (hs.deep.resolve_left hout)
    rwa [hfed] at hrel
  · exact absurd hnone hout
  · exact ⟨before, after, ⟨rest, hcalls.symm⟩, hpre, hphase, hrel⟩

theorem HeightsFit.of_isPrefix {before after : List Call} (h : HeightsFit C calls)
    (hcalls : before ++ after <+: calls) : C.chainStart.nHeight + (fed before).length < 2 ^ 31 ∧
      C.chainStart.nHeight + (fed after).length < 2 ^ 31 := by
  obtain ⟨rest, rfl⟩ := hcalls
  rw [HeightsFit, fed_append, fed_append, length_append, length_append] at h
  omega

theorem History.commitments_le (h : History getHash C calls) :
    (run getHash C calls).1.headerCommitments.length ≤ C.maxCommitments := by
  rcases h with ⟨hs, -, -, -⟩ | ⟨_, _, _, -, -, -, hs, -⟩ | ⟨_, _, _, -, hs, -⟩
  · exact hs.bounded
  · exact hs.sync.bounded
  · simp [hs.commitments]

theorem History.buffer_le (h : History getHash C calls) :
    (run getHash C calls).1.redownloadedHeaders.length ≤ C.params.redownloadBufferSize := by
  rcases h with ⟨hs, -, -, -⟩ | ⟨_, _, _, -, -, -, hs, -⟩ | ⟨_, _, _, -, hs, -⟩
  · simp [hs.buffer]
  · rw [hs.sync.buffer, length_map]
    exact hs.short
  · simp [hs.buffer]

/-- **Every run is sound**, against any peer. -/
theorem processNextHeaders_sound (getHash : BlockHeader → Uint256) (C : SyncConfig)
    (hsize : 1 ≤ C.params.redownloadBufferSize) (calls : List Call)
    (hne : ∀ c ∈ calls, c.1 ≠ []) : SoundRun getHash C calls := by
  have h : History getHash C calls := history hsize calls hne
  refine
    { chain := ?_
      presynced := fun hout hcont hfit => ?_
      deep := fun hout hfit => ?_
      commitments_le := h.commitments_le
      buffer_le := h.buffer_le
      final := fun p q hcalls hfinal => ?_ }
  · by_cases hout : returned getHash C calls = []
    · rw [hout]
      exact trivial
    · obtain ⟨before, after, -, -, -, hrel⟩ := h.released hout
      exact hrel.asertChain.of_isPrefix hrel.isPrefix
  · obtain ⟨before, after, hcalls, hpre, -, -⟩ := h.released hout
    have hbefore : before <+: calls := (prefix_append before after).trans hcalls
    refine ⟨before, hbefore, hpre.presync, ?_, hpre.sufficient.claimed⟩
    exact hpre.sufficient.asertChain (hpre.linked fun c hc => hcont c (hbefore.subset hc))
      (hfit.of_isPrefix hcalls).1
  · obtain ⟨before, after, hcalls, hpre, hphase, hrel⟩ := h.released hout
    obtain ⟨hfit₁, hfit₂⟩ := hfit.of_isPrefix hcalls
    refine ⟨before, after, hcalls, hpre.presync, hphase, hrel.asertChain, hrel.isPrefix, ?_⟩
    refine hrel.earned.imp_right fun hdeep => ⟨hdeep.1, fun i hat hi => ?_⟩
    -- the queue lines up with the heights, so that commitments agree height by height
    have hbits := hdeep.2
    rw [bitsOf_presyncHeight hfit₁] at hbits
    refine selectFrom_isPrefix hbits hi ?_
    rw [Nat.zero_add, isCommitmentHeight_heightAt (by omega), decide_eq_true_iff]
    exact hat
  · rw [hcalls, run_final hfinal]
    exact ⟨rfl, rfl⟩

/-! ## A sync of two blocks -/

/-- A sync from the genesis block that wants the work of two more blocks, which have no
commitment. -/
def twoBlockSync (redownloadBufferSize : ℕ) (hasher : Uint256 → UInt64) : SyncConfig where
  consensusParams := mainParams.consensus
  params := { commitmentPeriod := 1000, redownloadBufferSize := redownloadBufferSize }
  commitOffset := 0
  chainStart := mainGenesis
  minimumRequiredWork := BaseUint.ofUInt64 (3 * 4295032833)
  maxCommitments := 0
  hasher := hasher

def easyHeader (hashPrevBlock : Uint256) (nTime : UInt32) : BlockHeader where
  nVersion := 1
  hashPrevBlock := hashPrevBlock
  hashMerkleRoot := 0
  nTime := nTime
  nBits := 0x1d00ffff
  nNonce := 0

section

variable (getHash : BlockHeader → Uint256)

/-- A block on the genesis block, behind its schedule. -/
def firstHeader : BlockHeader := easyHeader (getHash mainGenesis.header) 1785763002

variable (parent : Uint256)

/-- A block that names `parent`, to follow the first one. -/
def nextHeader : BlockHeader := easyHeader parent 1785763152

/-- A message with two blocks, of which the second names `parent`, and then the two blocks of a
chain. -/
def twoBlockCalls : List Call :=
  [([firstHeader getHash, nextHeader parent], true),
    ([firstHeader getHash, nextHeader (getHash (firstHeader getHash))], true)]

end

/-- **Presync can be shown headers that form no chain.** A second header that does not name the
first passes presync in one message with it. Headers are identified by their Merkle root here. -/
theorem presync_shown_no_chain : returned hashMerkleRoot (twoBlockSync 1 fun _ => 0)
        (twoBlockCalls hashMerkleRoot 1) = [firstHeader hashMerkleRoot, nextHeader 0] ∧
    ¬ ∃ before, before <+: twoBlockCalls hashMerkleRoot 1 ∧ (∀ p q, before = p ++ q → q ≠ [] →
        (run hashMerkleRoot (twoBlockSync 1 fun _ => 0) p).1.downloadState = .presync) ∧
      AsertChain hashMerkleRoot (twoBlockSync 1 fun _ => 0) (fed before) ∧
      (twoBlockSync 1 fun _ => 0).minimumRequiredWork.toNat ≤
        claimedWork mainGenesis.nChainWork (fed before) := by
  refine ⟨by decide +kernel, ?_⟩
  rintro ⟨before, hbefore, hphase, hchain, hwork⟩
  match before, hbefore with
  | [], _ => exact absurd hwork (by decide +kernel)
  | [c], hbefore =>
    -- the message is no chain
    obtain rfl : c = _ := (cons_prefix_cons.1 hbefore).1
    exact absurd hchain.2.1.1 (by decide)
  | c :: c' :: rest, hbefore =>
    -- the second message is no longer presync
    obtain rfl : c = _ := (cons_prefix_cons.1 hbefore).1
    exact absurd (hphase [_] (c' :: rest) rfl (cons_ne_nil _ _)) (by decide +kernel)

theorem twoBlockCalls_sound : returned hashMerkleRoot (twoBlockSync 1 fun _ => 0)
        (twoBlockCalls hashMerkleRoot 0) ≠ [] ∧
      SoundRun hashMerkleRoot (twoBlockSync 1 fun _ => 0) (twoBlockCalls hashMerkleRoot 0) := by
  refine ⟨by decide +kernel, processNextHeaders_sound _ _ le_rfl _ ?_⟩
  · intro c hc
    rcases mem_pair.1 hc with rfl | rfl <;> exact cons_ne_nil _ _

end HeadersSync

end Quarlcoin
