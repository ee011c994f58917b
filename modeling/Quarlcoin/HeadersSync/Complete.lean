import Quarlcoin.HeadersSync.Sound
/-!
# Low-work header sync — completeness

An honest peer serves one chain twice, cut into messages as it likes, and the chain comes
out. Redownload finds the time of a header's parent in the buffer, so a buffer that may run
empty between two messages loses it.
-/

namespace Quarlcoin

open Arith Quarlcoin.Pow Indexed List BlockHeader Nat

namespace HeadersSync

variable (getHash : BlockHeader → Uint256) (C : SyncConfig)

/-- A way to cut a chain into messages: none is empty, and all but possibly
the last are full. -/
structure Cut (chain : List BlockHeader) (cut : List Call) : Prop where
  fed_eq : fed cut = chain
  nonempty : ∀ c ∈ cut, c.1 ≠ []
  full : ∀ c ∈ cut.dropLast, c.2 = true

/-- The peer serves the messages of a cut for as long as the sync is in their phase. -/
def servePhase (phase : State) :
    HeadersSyncState → List Call → HeadersSyncState × List ProcessingResult
  | s, [] => (s, [])
  | s, c :: cut =>
    if s.downloadState = phase then
      let next := processNextHeaders getHash C s c.1 c.2
      let served := servePhase phase next.1 cut
      (served.1, next.2 :: served.2)
    else (s, [])

/-- The messages of the first download. -/
def servePresync (cut : List Call) : HeadersSyncState × List ProcessingResult :=
  servePhase getHash C .presync (init C) cut

variable (cut cut' : List Call)

/-- Those of the second, after the first. -/
def serveRedownload : HeadersSyncState × List ProcessingResult :=
  servePhase getHash C .redownload (servePresync getHash C cut).1 cut'

/-- **What an honest peer gets**, with the first download cut one way and
the second another. -/
structure Served : Prop where
  /-- No call fails. -/
  success : ∀ r ∈ (servePresync getHash C cut).2 ++ (serveRedownload getHash C cut cut').2,
    r.success = true
  /-- The chain comes out, up to the end of the message in which the
  redownloaded work is enough. -/
  released : ((servePresync getHash C cut).2 ++ (serveRedownload getHash C cut cut').2).flatMap
    ProcessingResult.powValidatedHeaders =
      fed (cut'.take (serveRedownload getHash C cut cut').2.length)
  reached : C.minimumRequiredWork.toNat ≤ claimedWork C.chainStart.nChainWork
    (fed (cut'.take (serveRedownload getHash C cut cut').2.length))
  unreached : ∀ n, 0 < n → n < (serveRedownload getHash C cut cut').2.length →
    claimedWork C.chainStart.nChainWork (fed (cut'.take n)) < C.minimumRequiredWork.toNat
  /-- The state is final after that message, and not before. -/
  presync : ∀ n, n < (servePresync getHash C cut).2.length →
    (servePresync getHash C (cut.take n)).1.downloadState = .presync
  redownload : ∀ n, n < (serveRedownload getHash C cut cut').2.length →
    (serveRedownload getHash C cut (cut'.take n)).1.downloadState = .redownload
  final : 0 < (serveRedownload getHash C cut cut').2.length ∧
    (serveRedownload getHash C cut cut').1.downloadState = .final
  /-- After any part `l` of a message, the time redownload uses for the next
  header's parent is that of the header whose hash it has as the last one. -/
  parentTime : ∀ n, n < (serveRedownload getHash C cut cut').2.length →
    ∀ c ∈ cut'[n]?, ∀ l, l <+: c.1 → (validateEach (validateAndStoreRedownloadedHeader getHash C)
        (serveRedownload getHash C cut (cut'.take n)).1 l).1.redownloadBufferLastHash =
          getHash (tip C (fed (cut'.take n) ++ l)) ∧
      previousTime C (validateEach (validateAndStoreRedownloadedHeader getHash C)
        (serveRedownload getHash C cut (cut'.take n)).1 l).1 =
          (tip C (fed (cut'.take n) ++ l)).nTime

variable {getHash} {C}

/-! ## One phase -/

section

variable {phase : State} {s s' : HeadersSyncState} {r : ProcessingResult} {c : Call} {cut : List Call}

theorem servePhase_cons (hs : s.downloadState = phase)
    (hcall : processNextHeaders getHash C s c.1 c.2 = (s', r)) :
    servePhase getHash C phase s (c :: cut) =
      ((servePhase getHash C phase s' cut).1, r :: (servePhase getHash C phase s' cut).2) := by
  rw [servePhase, if_pos hs, hcall]

theorem servePhase_of_ne (hs : s.downloadState ≠ phase) : servePhase getHash C phase s cut =
    (s, []) := by
  cases cut with
  | nil => rfl
  | cons c cut => rw [servePhase, if_neg hs]

theorem fed_cons : fed (c :: cut) = c.1 ++ fed cut := rfl

theorem full_of_cons_ne_nil (hfull : ∀ c' ∈ (c :: cut).dropLast, c'.2 = true) (hcut : cut ≠ []) :
    c.2 = true ∧ ∀ c' ∈ cut.dropLast, c'.2 = true := by
  rw [dropLast_cons_of_ne_nil hcut] at hfull
  exact ⟨hfull c (by simp), fun c' hc => hfull c' (by simp [hc])⟩

/-- **The first download of a chain** goes on until its work is enough, and
then the sync waits for the second. -/
theorem Presyncing.serve {pre : List BlockHeader} (hs : Presyncing getHash C s pre)
    (hne : ∀ c ∈ cut, c.1 ≠ []) (hfull : ∀ c ∈ cut.dropLast, c.2 = true)
    (hlink : IChain (Link getHash) 0 C.chainStart.header (pre ++ fed cut))
    (hok : PresyncOk getHash C (pre ++ fed cut)) (hcut : cut ≠ [])
    (hwork : C.minimumRequiredWork.toNat ≤
      (chainWork C.chainStart.nChainWork (pre ++ fed cut)).toNat) :
    (∀ r ∈ (servePhase getHash C .presync s cut).2, r.success = true ∧ r.powValidatedHeaders = []) ∧
      (∀ n, n < (servePhase getHash C .presync s cut).2.length →
        (servePhase getHash C .presync s (cut.take n)).1.downloadState = .presync) ∧
      ∃ shown, shown <+: fed cut ∧ Sufficient getHash C (pre ++ shown) ∧
        Waiting getHash C (servePhase getHash C .presync s cut).1 (pre ++ shown) [] [] := by
  induction cut generalizing s pre with
  | nil => exact absurd rfl hcut
  | cons c cut ih =>
    obtain ⟨headers, full⟩ := c
    obtain ⟨first, headers, rfl⟩ := exists_cons_of_ne_nil (hne (headers, full) (by simp))
    rw [fed_cons, ← append_assoc] at hlink hok hwork
    have hfirst : first.hashPrevBlock = getHash (tip C pre) :=
      (iChain_append.1 (iChain_append.1 hlink).1).2.1
    obtain ⟨t, hpass⟩ := hs.message_ok hfirst hok.left
    obtain ⟨hsucc, hnone, hnext⟩ := hs.call_passed hpass rfl
    rw [servePhase_cons hs.state Prod.mk.eta.symm]
    rcases hnext with ⟨hsuff, hwait⟩ | ⟨hshort, ht, heq⟩
    · -- the work is enough: the rest of the cut is not asked for
      have hstate := hwait.sync.state
      rw [servePhase_of_ne (by rw [hstate]; decide)]
      refine ⟨by simp [hsucc, hnone], ?_, first :: headers, prefix_append _ _, hsuff, hwait⟩
      intro n hn
      obtain rfl : n = 0 := by simpa using hn
      exact hs.state
    · have hcut' : cut ≠ [] := by
        rintro rfl
        rw [show fed [] = [] from rfl, append_nil] at hwork
        exact absurd hwork (Nat.not_le_of_lt hshort)
      obtain ⟨rfl, hfull'⟩ := full_of_cons_ne_nil hfull hcut'
      rw [if_pos rfl] at heq
      obtain ⟨hall, hphase, shown, hshown, hsuff, hwait⟩ := @ih _ _ (heq ▸ ht)
        (fun c hc => hne c (by simp [hc])) hfull' hlink hok hcut' hwork
      refine ⟨?_, ?_, first :: headers ++ shown, ?_, ?_, ?_⟩
      · rintro r (_ | ⟨_, hr⟩)
        · exact ⟨hsucc, hnone⟩
        · exact hall r hr
      · rintro (_ | n) hn
        · exact hs.state
        · rw [take_succ_cons, servePhase_cons hs.state Prod.mk.eta.symm]
          exact hphase n (by simpa using hn)
      · exact (prefix_append_right_inj _).2 hshown
      · rw [← append_assoc]
        exact hsuff
      · rw [← append_assoc]
        exact hwait

variable (getHash C) in
/-- What the second download of a cut gives from a state in redownload. -/
structure Delivered (s : HeadersSyncState) (pre out buf : List BlockHeader) (cut : List Call) :
    Prop where
  success : ∀ r ∈ (servePhase getHash C .redownload s cut).2, r.success = true
  released : out ++ (servePhase getHash C .redownload s cut).2.flatMap
      ProcessingResult.powValidatedHeaders =
    out ++ buf ++ fed (cut.take (servePhase getHash C .redownload s cut).2.length)
  reached : C.minimumRequiredWork.toNat ≤ claimedWork C.chainStart.nChainWork
    (out ++ buf ++ fed (cut.take (servePhase getHash C .redownload s cut).2.length))
  unreached : ∀ n, 0 < n → n < (servePhase getHash C .redownload s cut).2.length →
    claimedWork C.chainStart.nChainWork (out ++ buf ++ fed (cut.take n)) <
      C.minimumRequiredWork.toNat
  pos : 0 < (servePhase getHash C .redownload s cut).2.length
  ended : Ended (servePhase getHash C .redownload s cut).1
  waiting : ∀ n, n < (servePhase getHash C .redownload s cut).2.length → ∃ out' buf',
    out' ++ buf' = out ++ buf ++ fed (cut.take n) ∧
      Waiting getHash C (servePhase getHash C .redownload s (cut.take n)).1 pre out' buf'

variable {pre out buf : List BlockHeader}

section

variable (hs : Waiting getHash C s pre out buf)
include hs

variable (hcall : processNextHeaders getHash C s c.1 c.2 = (s', r))
include hcall

theorem Waiting.delivered_last (hsucc : r.success = true) (hwork : C.minimumRequiredWork.toNat ≤
      claimedWork C.chainStart.nChainWork (out ++ (buf ++ c.1)))
    (hout : r.powValidatedHeaders = buf ++ c.1) (hend : Ended s') :
    Delivered getHash C s pre out buf (c :: cut) := by
  have hserve : servePhase getHash C .redownload s (c :: cut) = (s', [r]) := by
    rw [servePhase_cons hs.sync.state hcall, servePhase_of_ne (by rw [hend.state]; decide)]
  have hfed : fed ((c :: cut).take 1) = c.1 := by simp
  refine ⟨?_, ?_, ?_, ?_, ?_, ?_, ?_⟩
  all_goals rw [hserve]
  · simpa using hsucc
  · simp [hout]
  · rwa [length_singleton, hfed, append_assoc]
  · intro n hpos hn
    rw [length_singleton] at hn
    omega
  · exact one_pos
  · exact hend
  · intro n hn
    obtain rfl : n = 0 := by simpa using hn
    exact ⟨out, buf, by simp [fed], hs⟩

theorem Waiting.delivered_cons {buf' : List BlockHeader} (hsucc : r.success = true)
    (hwork : claimedWork C.chainStart.nChainWork (out ++ (buf ++ c.1)) <
      C.minimumRequiredWork.toNat) (hbuf : r.powValidatedHeaders ++ buf' = buf ++ c.1)
    (hnext : Delivered getHash C s' pre (out ++ r.powValidatedHeaders) buf' cut) :
    Delivered getHash C s pre out buf (c :: cut) := by
  have happend : ∀ l, out ++ r.powValidatedHeaders ++ buf' ++ l = out ++ buf ++ (c.1 ++ l) := by
    rw [append_assoc out, hbuf]
    simp
  refine ⟨?_, ?_, ?_, ?_, ?_, ?_, ?_⟩
  all_goals rw [servePhase_cons hs.sync.state hcall]
  · rintro _ (_ | ⟨_, hr⟩)
    · exact hsucc
    · exact hnext.success _ hr
  · have hreleased := hnext.released
    rw [happend] at hreleased
    rw [flatMap_cons, ← append_assoc, hreleased, length_cons, take_succ_cons, fed_cons]
  · have hreached := hnext.reached
    rw [happend] at hreached
    rwa [length_cons]
  · rintro (_ | n) hpos hn
    · exact absurd hpos (lt_irrefl 0)
    · rw [take_succ_cons, fed_cons]
      rcases Nat.eq_zero_or_pos n with rfl | hn'
      · simpa [fed] using hwork
      · rw [← happend]
        exact hnext.unreached n hn' (by simpa using hn)
  · exact succ_pos _
  · exact hnext.ended
  · rintro (_ | n) hn
    · exact ⟨out, buf, by simp [fed], hs⟩
    · obtain ⟨out', buf'', heq, hwait⟩ := hnext.waiting n (by simpa using hn)
      refine ⟨out', buf'', ?_, ?_⟩
      · rw [heq, happend, take_succ_cons, fed_cons]
      · rw [take_succ_cons, servePhase_cons hs.sync.state hcall]
        exact hwait

omit hcall

/-- **The second download of a chain** goes on until its work is enough, and
all of it is handed out by then. -/
theorem Waiting.serve (hsize : 1 ≤ C.params.redownloadBufferSize) (hne : ∀ c ∈ cut, c.1 ≠ [])
    (hfull : ∀ c ∈ cut.dropLast, c.2 = true)
    (hok : RedownloadOk getHash C pre (out ++ buf ++ fed cut)) (hcut : cut ≠ [])
    (hlt : claimedWork C.chainStart.nChainWork (out ++ buf ++ fed cut) < 2 ^ 256)
    (hwork : C.minimumRequiredWork.toNat ≤
      claimedWork C.chainStart.nChainWork (out ++ buf ++ fed cut)) :
    Delivered getHash C s pre out buf cut := by
  induction cut generalizing s out buf with
  | nil => exact absurd rfl hcut
  | cons c cut ih =>
    have hfed : out ++ buf ++ fed (c :: cut) = out ++ (buf ++ c.1) ++ fed cut := by
      rw [fed_cons]
      simp
    rw [hfed] at hok hlt hwork
    obtain ⟨u, hpass⟩ := hs.sync.message_ok hok.left
    obtain ⟨hsucc, ⟨-, hreached, hout, hend⟩ | ⟨hshort, buf', t, hbuf, ht, heq⟩⟩ :=
      hs.call_passed hsize (hne c (by simp)) hpass rfl
    · exact hs.delivered_last rfl hsucc hreached hout hend
    rw [toNat_chainWork, mod_eq_of_lt ((claimedWork_le_append _ _ _).trans_lt hlt)] at hshort
    have hcut' : cut ≠ [] := by
      rintro rfl
      rw [show fed [] = [] from rfl, append_nil] at hwork
      exact absurd hwork (Nat.not_le_of_lt hshort)
    obtain ⟨hc, hfull'⟩ := full_of_cons_ne_nil hfull hcut'
    rw [if_pos hc] at heq
    rw [← hbuf, ← append_assoc] at hok hlt hwork
    exact hs.delivered_cons rfl hsucc hshort hbuf
      (ih (heq ▸ ht) (fun c hc => hne c (by simp [hc])) hfull' hok hcut' hlt hwork)

end

end

/-! ## The whole sync -/

section

variable {chain : List BlockHeader} (h : AsertChain getHash C chain)
include h

theorem AsertChain.linked : IChain (Link getHash) 0 C.chainStart.header chain :=
  h.imp fun _ _ _ _ _ hlink => hlink.1

theorem AsertChain.permitted : IChain (Permitted C (heightAt C)) 0 C.chainStart.header chain := by
  refine h.imp fun i _ _ parent header hlink => ?_
  rw [Permitted, permittedDifficultyTransition]
  cases hretarget : C.consensusParams.fPowNoRetargeting with
  | true => rfl
  | false => simpa using hlink.2 hretarget

omit h

theorem bitsOf_isPrefix {height : ℕ → Int64} {hs hs' : List BlockHeader} (h : hs <+: hs') :
    bitsOf getHash C height hs <+: bitsOf getHash C height hs' := by
  obtain ⟨t, rfl⟩ := h
  rw [bitsOf, bitsOf, selectFrom_append]
  exact prefix_append _ _

/-- What a chain shows in presync is enough to redownload it: a part of it
whose work is not enough is a part of what was shown. -/
theorem AsertChain.redownloadOk (h : AsertChain getHash C chain)
    (hfit : C.chainStart.nHeight + chain.length < 2 ^ 31)
    (hlt : claimedWork C.chainStart.nChainWork chain < 2 ^ 256) {shown : List BlockHeader}
    (hshown : shown <+: chain) (hsuff : Sufficient getHash C shown) :
    RedownloadOk getHash C shown chain := by
  refine ⟨h.linked, h.permitted, fun p hp hwork => ?_⟩
  have hlen := hshown.length_le
  rw [bitsOf_presyncHeight (by omega)]
  refine bitsOf_isPrefix (( prefix_or_prefix_of_prefix hp hshown).resolve_right ?_)
  rintro ⟨t, rfl⟩
  obtain ⟨t', rfl⟩ := hp
  have hle := claimedWork_le_append C.chainStart.nChainWork shown t
  rw [toNat_chainWork, mod_eq_of_lt ((claimedWork_le_append _ _ _).trans_lt hlt)] at hwork
  have := hsuff.claimed
  omega

theorem fed_take_isPrefix (cut : List Call) (n : ℕ) : fed (cut.take n) <+: fed cut := by
  have hfed := fed_append (cut.take n) (cut.drop n)
  rw [take_append_drop] at hfed
  rw [hfed]
  exact prefix_append _ _

theorem fed_take_succ {cut : List Call} {n : ℕ} {c : Call} (hc : c ∈ cut[n]?) :
    fed (cut.take (n + 1)) = fed (cut.take n) ++ c.1 := by
  rw [take_add_one, fed_append, Option.mem_def.1 hc]
  simp

theorem Cut.ne_nil {cut : List Call} (h : Cut chain cut) (hne : chain ≠ []) : cut ≠ [] := by
  rintro rfl
  exact hne h.fed_eq.symm

/-- **An honest peer's chain gets through**, however it is cut, when the
buffer holds at least one header. -/
theorem honest_chain_served (getHash : BlockHeader → Uint256) (C : SyncConfig)
    (chain : List BlockHeader) (cut cut' : List Call) (hsize : 1 ≤ C.params.redownloadBufferSize)
    (hfit : C.chainStart.nHeight + chain.length < 2 ^ 31)
    (hlt : claimedWork C.chainStart.nChainWork chain < 2 ^ 256)
    (hne : chain ≠ []) (hchain : AsertChain getHash C chain)
    (hwork : C.minimumRequiredWork.toNat ≤ claimedWork C.chainStart.nChainWork chain)
    (hcommit : (bitsOf getHash C (heightAt C) chain).length ≤ C.maxCommitments)
    (hcut : Cut chain cut) (hcut' : Cut chain cut') : Served getHash C cut cut' := by
  have hok : PresyncOk getHash C ([] ++ fed cut) := by
    rw [nil_append, hcut.fed_eq]
    refine ⟨(permitted_presyncHeight hfit).2 hchain.permitted, ?_⟩
    rwa [bitsOf_presyncHeight hfit]
  obtain ⟨hpre, hphase, shown, hshown, hsuff, hwait⟩ := presyncing_init.serve hcut.nonempty
    hcut.full (by rw [hcut.fed_eq]; exact hchain.linked) hok (hcut.ne_nil hne)
    (by rwa [nil_append, hcut.fed_eq, toNat_chainWork, mod_eq_of_lt hlt])
  rw [hcut.fed_eq] at hshown
  have hredownload : RedownloadOk getHash C shown chain := hchain.redownloadOk hfit hlt hshown hsuff
  have hfed' : ([] : List BlockHeader) ++ [] ++ fed cut' = chain := hcut'.fed_eq
  have hdel := hwait.serve hsize hcut'.nonempty hcut'.full (hfed' ▸ hredownload)
    (hcut'.ne_nil hne) (hfed' ▸ hlt) (hfed' ▸ hwork)
  refine
    { success := ?_
      released := ?_
      reached := hdel.reached
      unreached := hdel.unreached
      presync := hphase
      redownload := fun n hn => ?_
      final := ⟨hdel.pos, hdel.ended.state⟩
      parentTime := fun n hn c hc l hl => ?_ }
  · intro r hr
    rcases mem_append.1 hr with hr | hr
    · exact (hpre r hr).1
    · exact hdel.success r hr
  · have hnone : (servePresync getHash C cut).2.flatMap ProcessingResult.powValidatedHeaders = [] :=
      flatMap_eq_nil_iff.2 fun r hr => (hpre r hr).2
    rw [flatMap_append, hnone]
    exact hdel.released
  · obtain ⟨out, buf, -, hs⟩ := hdel.waiting n hn
    exact hs.sync.state
  · obtain ⟨out, buf, heq, hs⟩ := hdel.waiting n hn
    have heq' : out ++ buf = fed (cut'.take n) := heq
    -- the part of the chain up to here passes, so the buffer describes it
    have hpart : out ++ (buf ++ l) <+: chain := by
      rw [← append_assoc, heq', ← hcut'.fed_eq]
      refine List.IsPrefix.trans ?_ (fed_take_isPrefix cut' (n + 1))
      rw [fed_take_succ hc]
      exact (prefix_append_right_inj _).2 hl
    obtain ⟨rest, rfl⟩ := hpart
    obtain ⟨t, hpass⟩ := hs.sync.message_ok hredownload.left
    have hnext := hs.sync.message_next hpass
    rw [serveRedownload, servePresync, hpass, ← heq', append_assoc]
    exact ⟨hnext.lastHash, hnext.previousTime_eq⟩

end

/-! ## A buffer that runs empty -/

section

variable (getHash : BlockHeader → Uint256)

def twoBlocks : List BlockHeader :=
  [firstHeader getHash, nextHeader (getHash (firstHeader getHash))]

def oneMessage : List Call := [(twoBlocks getHash, true)]

def twoMessages : List Call :=
  [([firstHeader getHash], true), ([nextHeader (getHash (firstHeader getHash))], true)]

theorem oneMessage_cut : Cut (twoBlocks getHash) (oneMessage getHash) where
  fed_eq := by simp [oneMessage]
  nonempty := by simp [oneMessage, twoBlocks]
  full := by simp [oneMessage]

theorem twoMessages_cut : Cut (twoBlocks getHash) (twoMessages getHash) where
  fed_eq := rfl
  nonempty := by simp [twoMessages]
  full := by simp [twoMessages]

end

theorem asertChain_twoBlocks (size : ℕ) : AsertChain hashMerkleRoot
    (twoBlockSync size fun _ => 0) (twoBlocks hashMerkleRoot) := by
  have hfirst : permittedDifficultyTransition mainParams.consensus 0 (getBlockTime 1785762002)
      0x1d00ffff = true := by decide +kernel
  have hnext : permittedDifficultyTransition mainParams.consensus 1 (getBlockTime 1785763002)
      0x1d00ffff = true := by decide +kernel
  exact asertChain_of ⟨rfl, rfl, trivial⟩ ⟨hfirst, hnext, trivial⟩

/-- **A buffer of size zero loses the parent's time**: an honest peer that sends two blocks in two
messages is cut off at the second. -/
theorem empty_buffer_loses_parent_time : AsertChain hashMerkleRoot (twoBlockSync 0 fun _ => 0)
        (twoBlocks hashMerkleRoot) ∧ (twoBlockSync 0 fun _ => 0).minimumRequiredWork.toNat ≤
        claimedWork mainGenesis.nChainWork (twoBlocks hashMerkleRoot) ∧
      (bitsOf hashMerkleRoot (twoBlockSync 0 fun _ => 0)
        (heightAt (twoBlockSync 0 fun _ => 0)) (twoBlocks hashMerkleRoot)).length ≤
          (twoBlockSync 0 fun _ => 0).maxCommitments ∧
      Cut (twoBlocks hashMerkleRoot) (oneMessage hashMerkleRoot) ∧
      Cut (twoBlocks hashMerkleRoot) (twoMessages hashMerkleRoot) ∧
      ∃ r ∈ (serveRedownload hashMerkleRoot (twoBlockSync 0 fun _ => 0)
        (oneMessage hashMerkleRoot) (twoMessages hashMerkleRoot)).2, r.success = false :=
  ⟨asertChain_twoBlocks 0, by decide +kernel, by decide +kernel, oneMessage_cut _,
    twoMessages_cut _, by decide +kernel⟩

/-- With a buffer of one header the same two messages get through. -/
theorem twoMessages_served : Served hashMerkleRoot (twoBlockSync 1 fun _ => 0)
      (oneMessage hashMerkleRoot) (twoMessages hashMerkleRoot) := by
  refine honest_chain_served hashMerkleRoot (twoBlockSync 1 fun _ => 0)
    (twoBlocks hashMerkleRoot) _ _ le_rfl (by decide) ?_ (cons_ne_nil _ _)
    (asertChain_twoBlocks 1) ?_ ?_ (oneMessage_cut _) (twoMessages_cut _)
  · decide +kernel
  · decide +kernel
  · decide +kernel

end HeadersSync

end Quarlcoin
