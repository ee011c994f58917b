import Quarlcoin.Orphanage.Accounts
/-!
# Trimming

`LimitOrphans` with the shares of all peers fixed at the start. As long as a global limit is
exceeded some peer exceeds its share, and the heap has all such peers: only their
announcements are erased.
-/

namespace Quarlcoin

open Arith Shares List Finset Prod OrphanTx PeerDoSInfo

namespace TxOrphanage

/-- The peer uses more than its share. -/
def ExceedsShare (s : TxOrphanage) (maxLat maxMem peer : ℤ) : Prop :=
  maxLat < s.latencyScoreFromPeer peer ∨ maxMem < s.usageByPeer peer

/-- Shares are positive and fit into the size of a `FeeFrac`. -/
structure FitShares (maxLat maxMem : ℤ) : Prop where
  lat_pos : 0 < maxLat
  lat_lt : maxLat < 2 ^ 31
  mem_pos : 0 < maxMem
  mem_lt : maxMem < 2 ^ 31

/-! ## Scores -/

variable {e f : ℤ × FeeFrac} {maxLat maxMem worst peer : ℤ} {info : PeerDoSInfo} {T : Set OrphanTx}
  {s s' s'' : TxOrphanage} {ann : Announcement} {who left : ℤ → Prop} {heap : List (ℤ × FeeFrac)}

theorem toSize_of_fits {n : ℤ} (hpos : 0 < n) (hlt : n < 2 ^ 31) : toSize n = n :=
  Int.bmod_eq_of_le (by omega) (by omega)

theorem getDosScore_spec (h : FitShares maxLat maxMem) (info : PeerDoSInfo) :
    0 < (info.getDosScore maxLat maxMem).size ∧ (1 < (info.getDosScore maxLat maxMem).ratio ↔
        maxLat < info.totalLatencyScore ∨ maxMem < info.totalUsage) := by
  have hlat : (0 : ℚ) < maxLat := by exact_mod_cast h.lat_pos
  have hmem : (0 : ℚ) < maxMem := by exact_mod_cast h.mem_pos
  have hone : ∀ (n d : ℤ), (0 : ℚ) < d → (1 < (FeeFrac.mk n d).ratio ↔ d < n) := by
    intro n d hd
    rw [FeeFrac.ratio, lt_div_iff₀ hd, one_mul, Int.cast_lt]
  simp only [getDosScore, toSize_of_fits h.lat_pos h.lat_lt, toSize_of_fits h.mem_pos h.mem_lt]
  split
  · next hlt =>
    refine ⟨h.mem_pos, (hone _ _ hmem).trans ⟨.inr, ?_⟩⟩
    rintro (hover | hover)
    · have hle := FeeFrac.ratio_le_of_ratioNegSize_le
        (((FeeFrac.ltByRatioNegSize_iff h.lat_pos h.mem_pos).1 hlt).le)
      exact (hone _ _ hmem).1 (lt_of_lt_of_le ((hone _ _ hlat).2 hover) hle)
    · exact hover
  · next hlt =>
    refine ⟨h.lat_pos, (hone _ _ hlat).trans ⟨.inl, ?_⟩⟩
    rintro (hover | hover)
    · exact hover
    · have hle := FeeFrac.ratio_le_of_ratioNegSize_le (not_lt.1 fun hlt' =>
        hlt ((FeeFrac.ltByRatioNegSize_iff h.lat_pos h.mem_pos).2 hlt'))
      exact (hone _ _ hlat).1 (lt_of_lt_of_le ((hone _ _ hmem).2 hover) hle)

def heapKey (e : ℤ × FeeFrac) : (ℚ ×ₗ ℤ) ×ₗ ℤ := toLex (e.2.ratioNegSize, e.1)

theorem worse_iff (he : 0 < e.2.size) (hf : 0 < f.2.size) :
    worse e f = true ↔ heapKey f < heapKey e := by
  rw [heapKey, heapKey, Prod.Lex.toLex_lt_toLex, worse]
  split
  · next hne =>
    rw [FeeFrac.ltByRatioNegSize_iff hf he]
    exact ⟨.inl, fun h => h.resolve_right fun h => hne (FeeFrac.ratioNegSize_injective hf h.1).symm⟩
  · next heq =>
    rw [decide_eq_true_eq, not_not.1 heq]
    exact ⟨fun h => .inr ⟨rfl, h⟩, fun h => h.elim (fun h => absurd h (lt_irrefl _)) fun h => h.2⟩

theorem ratio_le_of_heapKey_le (h : heapKey e ≤ heapKey f) : e.2.ratio ≤ f.2.ratio := by
  rcases Prod.Lex.toLex_le_toLex.1 h with hlt | ⟨heq, -⟩
  · exact FeeFrac.ratio_le_of_ratioNegSize_le (le_of_lt hlt)
  · exact FeeFrac.ratio_le_of_ratioNegSize_le (le_of_eq heq)

theorem ratio_le_worst {worst : ℤ × FeeFrac}
    (hsize : ∀ e ∈ heap, 0 < e.2.size) (h : Choice.best worse heap = some worst) :
    ∀ e ∈ heap, e.2.ratio ≤ worst.2.ratio := by
  have hmax : ∀ e ∈ heap, heapKey e ≤ heapKey worst :=
    Choice.le_best (fun x hx y hy => worse_iff (hsize x hx) (hsize y hy)) h
  exact fun e he => ratio_le_of_heapKey_le (hmax e he)

/-! ## Someone exceeds its share -/

theorem latencyScore_pos (tx : OrphanTx) : 0 < tx.latencyScore := by
  unfold latencyScore
  omega

theorem memUsage_nonneg (tx : OrphanTx) : 0 ≤ tx.memUsage := Int.natCast_nonneg _

theorem InStep.mem_keys_iff (h : InStep T s) :
    peer ∈ s.peerOrphanageInfo ↔ peer ∈ holders s.announced := by
  rw [← AList.lookup_isSome, h.info, infoOf]
  split
  · next hmem => exact ⟨fun _ => hmem, fun _ => rfl⟩
  · next hmem => exact ⟨fun h => (by cases h), fun h => absurd h hmem⟩

theorem mem_holders_announced : peer ∈ holders s.announced ↔ s.announcementsOf peer ≠ [] := by
  rw [mem_holders]
  constructor
  · rintro ⟨tx, htx⟩
    obtain ⟨ann, hann, heq⟩ := mem_announced.1 htx
    exact ne_nil_of_mem (mem_filter.2 ⟨hann, decide_eq_true (Prod.mk.inj heq).2⟩)
  · intro hne
    obtain ⟨ann, hann⟩ := exists_mem_of_ne_nil _ hne
    obtain ⟨hann, hpeer⟩ := mem_filter.1 hann
    exact ⟨ann.tx, mem_announced.2 ⟨ann, hann, by rw [pair, of_decide_eq_true hpeer]⟩⟩

section

variable (h : InStep T s)
include h

theorem InStep.keys_toFinset : s.peerOrphanageInfo.keys.toFinset = holders s.announced := by
  ext p
  rw [mem_toFinset, ← AList.mem_keys, h.mem_keys_iff]

theorem InStep.numPeers_eq : s.numPeers = (holders s.announced).card := by
  rw [← h.keys_toFinset, toFinset_card_of_nodup s.peerOrphanageInfo.keys_nodup, AList.keys, keys,
    length_map]
  rfl

theorem InStep.latencyScoreFromPeer_eq :
    s.latencyScoreFromPeer peer = held s.announced latencyScore peer := by
  rw [latencyScoreFromPeer, h.info, infoOf]
  split
  · rfl
  · next hmem => rw [held_eq_zero hmem]; rfl

theorem InStep.usageByPeer_eq : s.usageByPeer peer = held s.announced memUsage peer := by
  rw [usageByPeer, h.info, infoOf]
  split
  · rfl
  · next hmem => rw [held_eq_zero hmem]; rfl

theorem InStep.length_orphans : s.orphans.length = s.announced.card := by
  rw [announced, toFinset_card_of_nodup h.nodup, length_map]

/-- The latency score of the orphanage is at most that of its peers together. -/
theorem InStep.totalLatencyScore_le :
    s.totalLatencyScore ≤ ∑ y ∈ s.announced, y.1.latencyScore := by
  have hle := stored_le (A := s.announced) (w := fun tx => tx.latencyScore - 1)
    fun tx => Int.sub_nonneg_of_le (latencyScore_pos tx)
  rw [totalLatencyScore, h.scores, h.length_orphans]
  rw [sum_sub_distrib, sum_const, nsmul_one] at hle
  linarith

/-- **Over a global limit someone exceeds its share.** -/
theorem InStep.exists_exceeds (hlat : maxLat * s.numPeers ≤ s.limits.maxGlobalLatencyScore)
    (hmem : 0 < s.limits.reservedUsagePerPeer) (htrim : s.needsTrim = true) :
    ∃ peer ∈ holders s.announced, s.ExceedsShare maxLat s.limits.reservedUsagePerPeer peer := by
  simp only [ExceedsShare, h.latencyScoreFromPeer_eq, h.usageByPeer_eq]
  rw [needsTrim, decide_eq_true_eq, maxGlobalUsage, h.numPeers_eq] at htrim
  rw [h.numPeers_eq] at hlat
  rcases htrim with htrim | htrim
  · have htotal := h.totalLatencyScore_le
    obtain ⟨peer, hpeer, hlt⟩ := exists_share_lt
      maxLat (by linarith)
    exact ⟨peer, hpeer, .inl hlt⟩
  have htotal := stored_le (A := s.announced) memUsage_nonneg
  have hcard : ((holders s.announced).card : ℤ) ≤ max ((holders s.announced).card : ℤ) 1 :=
    le_max_left _ _
  have hshare := mul_le_mul_of_nonneg_left hcard hmem.le
  rw [h.usage] at htrim
  push_cast at htrim
  obtain ⟨peer, hpeer, hlt⟩ := exists_share_lt
    s.limits.reservedUsagePerPeer (by linarith)
  exact ⟨peer, hpeer, .inr hlt⟩

end

/-! ## What trimming erases -/

/-- Announcements of peers that exceed their share at that time are erased. -/
inductive Trims (maxLat maxMem : ℤ) (who : ℤ → Prop) : TxOrphanage → TxOrphanage → Prop
  | refl (s : TxOrphanage) : Trims maxLat maxMem who s s
  | step {s s' : TxOrphanage} {ann : Announcement} (hann : ann ∈ s.orphans)
      (hwho : who ann.announcer) (hover : s.ExceedsShare maxLat maxMem ann.announcer)
      (hrest : Trims maxLat maxMem who (s.erase ann) s') : Trims maxLat maxMem who s s'

section

variable (h : Trims maxLat maxMem who s s')
include h

theorem Trims.trans (h' : Trims maxLat maxMem who s' s'') : Trims maxLat maxMem who s s'' := by
  induction h with
  | refl => exact h'
  | step hann hwho hover _ ih => exact .step hann hwho hover (ih h')

theorem Trims.mono : Trims maxLat maxMem (fun _ => True) s s' := by
  induction h with
  | refl => exact .refl _
  | step hann _ hover _ ih => exact .step hann trivial hover ih

theorem Trims.limits_eq : s'.limits = s.limits := by
  induction h with
  | refl => rfl
  | step _ _ _ _ ih => exact ih

theorem Trims.inStep (hT : Set.InjOn wtxid T) (hin : InStep T s) : InStep T s' := by
  induction h with
  | refl => exact hin
  | step hann _ _ _ ih => exact ih (hin.erase hT hann)

end

theorem announcementsOf_erase (hpeer : ann.announcer ≠ peer) :
    (s.erase ann).announcementsOf peer = s.announcementsOf peer := by
  have hnot : ann ∉ s.orphans.filter (·.announcer = peer) := fun hmem =>
    hpeer (of_decide_eq_true (mem_filter.1 hmem).2)
  rw [announcementsOf, announcementsOf, TxOrphanage.erase, ← erase_filter, erase_of_not_mem hnot]

theorem InStep.lookup_erase (h : InStep T s) (hann : ann ∈ s.orphans)
    (hpeer : ann.announcer ≠ peer) :
    (s.erase ann).peerOrphanageInfo.lookup peer = s.peerOrphanageInfo.lookup peer := by
  have hne : ¬(pair ann).2 = peer := hpeer
  rw [TxOrphanage.erase, h.erasePeerInfo_lookup hann, infoOf_erase (pair_mem_announced hann),
    if_neg hne, h.info]

theorem InStep.exceedsShare_erase (h : InStep T s) (hann : ann ∈ s.orphans)
    (hpeer : ann.announcer ≠ peer) :
    (s.erase ann).ExceedsShare maxLat maxMem peer ↔ s.ExceedsShare maxLat maxMem peer := by
  rw [ExceedsShare, latencyScoreFromPeer, usageByPeer, h.lookup_erase hann hpeer]
  rfl

theorem length_erase_lt (hann : ann ∈ s.orphans) :
    (s.erase ann).orphans.length < s.orphans.length := by
  have hlen : (s.orphans.erase ann).length = s.orphans.length - 1 := length_erase_of_mem hann
  have hpos := length_pos_of_mem hann
  change (s.orphans.erase ann).length < s.orphans.length
  omega

section

variable (h : Trims maxLat maxMem who s s')
include h

theorem Trims.length_le : s'.orphans.length ≤ s.orphans.length := by
  induction h with
  | refl => exact le_refl _
  | step hann _ _ _ ih => exact ih.trans (length_erase_lt hann).le

variable (hT : Set.InjOn wtxid T) (hin : InStep T s)
include hT hin

theorem Trims.lookup_eq (hpeer : ¬who peer) :
    s'.peerOrphanageInfo.lookup peer = s.peerOrphanageInfo.lookup peer := by
  induction h with
  | refl => rfl
  | @step s _ ann hann hwho _ _ ih =>
    have hne : ann.announcer ≠ peer := by
      rintro rfl
      exact hpeer hwho
    rw [ih (hin.erase hT hann), hin.lookup_erase hann hne]

/-- **A peer within its share keeps all its announcements.** -/
theorem Trims.announcementsOf_eq (hpeer : ¬s.ExceedsShare maxLat maxMem peer) :
    s'.announcementsOf peer = s.announcementsOf peer := by
  induction h with
  | refl => rfl
  | @step s _ ann hann _ hover _ ih =>
    have hne : ann.announcer ≠ peer := by
      rintro rfl
      exact hpeer hover
    rw [ih (hin.erase hT hann) fun hex => hpeer ((hin.exceedsShare_erase hann hne).1 hex),
      announcementsOf_erase hne]

theorem Trims.numPeers_le : s'.numPeers ≤ s.numPeers := by
  induction h with
  | refl => exact le_refl _
  | step hann _ _ _ ih =>
    refine (ih (hin.erase hT hann)).trans ?_
    rw [hin.numPeers_eq, (hin.erase hT hann).numPeers_eq, hin.announced_erase hann]
    exact card_le_card (image_subset_image (erase_subset _ _))

end

/-! ## The loops -/

/-- The heap has the scores of its peers, each once, and all peers above one that
are not left out. -/
structure HeapOk (maxLat maxMem : ℤ) (left : ℤ → Prop) (s : TxOrphanage)
    (heap : List (ℤ × FeeFrac)) : Prop where
  nodup : (heap.map fst).Nodup
  score : ∀ e ∈ heap, ∃ info, s.peerOrphanageInfo.lookup e.1 = some info ∧
    e.2 = info.getDosScore maxLat maxMem
  covers : ∀ peer, s.ExceedsShare maxLat maxMem peer → left peer ∨ peer ∈ heap.map fst

section

variable {n : ℕ}

section

variable (hfit : FitShares maxLat maxMem)
include hfit

theorem exceedsShare_iff : s.ExceedsShare maxLat maxMem peer ↔
      ∃ info, s.peerOrphanageInfo.lookup peer = some info ∧
        1 < (info.getDosScore maxLat maxMem).ratio := by
  rw [ExceedsShare, latencyScoreFromPeer, usageByPeer]
  cases s.peerOrphanageInfo.lookup peer with
  | none =>
    have hlat := hfit.lat_pos
    have hmem := hfit.mem_pos
    simp only [Option.elim_none, reduceCtorEq, false_and, exists_false, iff_false]
    omega
  | some info =>
    simp [getDosScore_spec hfit]

variable (h : HeapOk maxLat maxMem left s heap)
include h

theorem HeapOk.size_pos : ∀ e ∈ heap, 0 < e.2.size := by
  intro e he
  obtain ⟨info, -, heq⟩ := h.score e he
  rw [heq]
  exact (getDosScore_spec hfit info).1

theorem HeapOk.one_lt_of_exceeds
    (hbest : Choice.best worse heap = some e) (hmem : peer ∈ heap.map fst)
    (hex : s.ExceedsShare maxLat maxMem peer) : 1 < e.2.ratio := by
  obtain ⟨info, hlookup, hratio⟩ := (exceedsShare_iff hfit).1 hex
  obtain ⟨f, hf, rfl⟩ := mem_map.1 hmem
  obtain ⟨info', hlookup', hscore⟩ := h.score f hf
  rw [hlookup] at hlookup'
  rw [← Option.some.inj hlookup'] at hscore
  rw [← hscore] at hratio
  exact lt_of_lt_of_le hratio (ratio_le_worst (h.size_pos hfit) hbest f hf)

end

/-- The shares the loops work with: together they are within the limits. -/
structure SharesOf (T : Set OrphanTx) (maxLat maxMem : ℤ) (s : TxOrphanage) : Prop where
  fit : FitShares maxLat maxMem
  inStep : InStep T s
  mem : maxMem = s.limits.reservedUsagePerPeer
  lat : maxLat * s.numPeers ≤ s.limits.maxGlobalLatencyScore

theorem SharesOf.exists_exceeds (h : SharesOf T maxLat maxMem s) (htrim : s.needsTrim = true) :
    ∃ peer ∈ holders s.announced, s.ExceedsShare maxLat maxMem peer := by
  rw [h.mem]
  exact h.inStep.exists_exceeds h.lat (h.mem ▸ h.fit.mem_pos) htrim

variable (hT : Set.InjOn wtxid T) (hs : SharesOf T maxLat maxMem s)
include hs

/-- While a limit is exceeded and the peer's score is above the threshold, the peer
exceeds its share. -/
theorem HeapOk.exceeds_of_threshold (h : HeapOk maxLat maxMem (· = worst) s heap)
    (hlookup : s.peerOrphanageInfo.lookup worst = some info)
    (hlt : ((Choice.best worse heap).elim ⟨1, 1⟩ (·.2) : FeeFrac).ltByRatioNegSize
      (info.getDosScore maxLat maxMem) = true) (htrim : s.needsTrim = true) :
    s.ExceedsShare maxLat maxMem worst := by
  obtain ⟨peer, -, hex⟩ := hs.exists_exceeds htrim
  rcases h.covers peer hex with rfl | hpeer
  · exact hex
  obtain ⟨e, hbest⟩ : ∃ e, Choice.best worse heap = some e :=
    Choice.exists_best fun hnil => by simp [hnil] at hpeer
  have hone := h.one_lt_of_exceeds hs.fit hbest hpeer hex
  rw [hbest, Option.elim_some, FeeFrac.ltByRatioNegSize_iff
    (h.size_pos hs.fit e (Choice.best_mem hbest)) (getDosScore_spec hs.fit info).1] at hlt
  exact (exceedsShare_iff hs.fit).2 ⟨info, hlookup,
    lt_of_lt_of_le hone (FeeFrac.ratio_le_of_ratioNegSize_le hlt.le)⟩

include hT

theorem SharesOf.of_trims
    (htrims : Trims maxLat maxMem who s s') : SharesOf T maxLat maxMem s' where
  fit := hs.fit
  inStep := htrims.inStep hT hs.inStep
  mem := by rw [htrims.limits_eq, hs.mem]
  lat := by
    rw [htrims.limits_eq]
    refine (mul_le_mul_of_nonneg_left ?_ hs.fit.lat_pos.le).trans hs.lat
    exact_mod_cast htrims.numPeers_le hT hs.inStep

variable (h : HeapOk maxLat maxMem (· = worst) s heap)
include h

theorem HeapOk.of_trims (hnot : worst ∉ heap.map fst)
    (htrims : Trims maxLat maxMem (· = worst) s s') : HeapOk maxLat maxMem (· = worst) s' heap := by
  refine ⟨h.nodup, fun e he => ?_, fun peer hex => ?_⟩
  · have hne : e.1 ≠ worst := fun heq => hnot (heq ▸ mem_map_of_mem he)
    rw [htrims.lookup_eq hT hs.inStep hne]
    exact h.score e he
  · by_cases hpeer : peer = worst
    · exact .inl hpeer
    · refine h.covers peer ?_
      rw [ExceedsShare, latencyScoreFromPeer, usageByPeer,
        htrims.lookup_eq hT hs.inStep hpeer] at hex
      exact hex

/-- **The inner loop** erases announcements of the worst peer only, while it
exceeds its share, and at least one. -/
theorem trimPeer_spec (hnot : worst ∉ heap.map fst)
    (hex : s.needsTrim = true → s.ExceedsShare maxLat maxMem worst) (hn : s.orphans.length ≤ n) :
    let s' := trimPeer maxLat maxMem worst ((Choice.best worse heap).elim ⟨1, 1⟩ (·.2)) n s
    Trims maxLat maxMem (· = worst) s s' ∧
      (s.needsTrim = true → s'.orphans.length < s.orphans.length) := by
  induction n generalizing s with
  | zero =>
    refine ⟨.refl s, fun htrim => ?_⟩
    -- without announcements no limit is exceeded
    obtain ⟨peer, hpeer, -⟩ := hs.exists_exceeds htrim
    refine absurd ?_ (mem_holders_announced.1 hpeer)
    rw [announcementsOf, length_eq_zero_iff.1 (Nat.le_zero.1 hn), filter_nil]
  | succ n ih =>
    unfold trimPeer
    split
    · next htrim =>
      have hover := hex htrim
      split
      · next hnone =>
        -- a peer that exceeds its share has announcements
        obtain ⟨info, hlookup, -⟩ := (exceedsShare_iff hs.fit).1 hover
        have hholder : worst ∈ holders s.announced :=
          hs.inStep.mem_keys_iff.1 (AList.lookup_isSome.1 (by rw [hlookup]; rfl))
        exact absurd (Choice.best_eq_none_iff.1 hnone) (mem_holders_announced.1 hholder)
      · next ann hfirst =>
        obtain ⟨hann, hworst⟩ := mem_filter.1 (Choice.best_mem hfirst)
        have hworst : ann.announcer = worst := of_decide_eq_true hworst
        have hone : Trims maxLat maxMem (· = worst) s (s.erase ann) :=
          .step hann hworst (hworst ▸ hover) (.refl _)
        have hlen := length_erase_lt hann
        have hs' := hs.of_trims hT hone
        have hheap := h.of_trims hT hs hnot hone
        simp only
        split
        · exact ⟨hone, fun _ => hlen⟩
        next info hlookup =>
        split
        · next hlt =>
          obtain ⟨htrims, -⟩ := ih hs' hheap (hheap.exceeds_of_threshold hs' hlookup hlt)
            (by omega)
          exact ⟨hone.trans htrims, fun _ => lt_of_le_of_lt htrims.length_le hlen⟩
        · exact ⟨hone, fun _ => hlen⟩
    · next htrim => exact ⟨.refl s, fun h => absurd h htrim⟩

omit h

/-- **The outer loop** ends within the limits. -/
theorem trimLoop_spec (h : HeapOk maxLat maxMem (fun _ => False) s heap)
    (htrim : s.needsTrim = true) (hn : s.orphans.length < n) :
    ∃ s', trimLoop maxLat maxMem n heap s = .ok s' ∧
      Trims maxLat maxMem (fun _ => True) s s' ∧ s'.needsTrim = false := by
  induction n generalizing s heap with
  | zero => omega
  | succ n ih =>
    obtain ⟨peer, -, hex⟩ := hs.exists_exceeds htrim
    have hpeer : peer ∈ heap.map fst := (h.covers peer hex).resolve_left id
    obtain ⟨worst, hbest⟩ : ∃ e, Choice.best worse heap = some e :=
      Choice.exists_best fun hnil => by simp [hnil] at hpeer
    have hworst := Choice.best_mem hbest
    obtain ⟨info, hlookup, hscore⟩ := h.score worst hworst
    have hover : s.ExceedsShare maxLat maxMem worst.1 := (exceedsShare_iff hs.fit).2
      ⟨info, hlookup, hscore ▸ h.one_lt_of_exceeds hs.fit hbest hpeer hex⟩
    -- the rest of the heap, without the worst
    have hperm : (heap.map fst).Perm (worst.1 :: (heap.erase worst).map fst) :=
      (perm_cons_erase hworst).map fst
    obtain ⟨hnot, hnodup⟩ := nodup_cons.1 (hperm.nodup_iff.1 h.nodup)
    have hrest : HeapOk maxLat maxMem (· = worst.1) s (heap.erase worst) :=
      ⟨hnodup, fun e he => h.score e (mem_of_mem_erase he), fun p hp =>
        mem_cons.1 (hperm.mem_iff.1 ((h.covers p hp).resolve_left id))⟩
    obtain ⟨htrims, hlen⟩ := trimPeer_spec hT hs hrest hnot (fun _ => hover)
      (le_refl s.orphans.length)
    have hlen := hlen htrim
    unfold trimLoop
    rw [hbest]
    simp only
    generalize trimPeer maxLat maxMem worst.1 _ s.orphans.length s = s' at htrims hlen
    have hs' := hs.of_trims hT htrims
    split
    · next htrim' =>
      have hheap := hrest.of_trims hT hs hnot htrims
      have hnext : ∀ heap', HeapOk maxLat maxMem (fun _ => False) s' heap' →
          ∃ s'', trimLoop maxLat maxMem n heap' s' = .ok s'' ∧
            Trims maxLat maxMem (fun _ => True) s s'' ∧ s''.needsTrim = false := by
        intro heap' hheap'
        obtain ⟨s'', hok, htrims', hdone⟩ := ih hs' hheap' htrim' (by omega)
        exact ⟨s'', hok, htrims.mono.trans htrims', hdone⟩
      split
      · next hgone =>
        refine hnext _ ⟨hnodup, hheap.score, fun p hp => .inr ?_⟩
        refine (hheap.covers p hp).resolve_left fun heq => ?_
        obtain ⟨info', hsome, -⟩ := (exceedsShare_iff hs.fit).1 hp
        rw [heq, hgone] at hsome
        cases hsome
      · next info' hsome =>
        have hcount : 0 < info'.countAnnouncements := by
          have hinfo := hs'.inStep.info worst.1
          rw [hsome, infoOf] at hinfo
          split at hinfo
          · next hholder =>
            rw [Option.some.inj hinfo]
            exact held_one_pos hholder
          · cases hinfo
        rw [if_pos hcount]
        refine hnext _ ⟨nodup_cons.2 ⟨hnot, hnodup⟩, fun e he => ?_, fun p hp => .inr ?_⟩
        · rcases mem_cons.1 he with rfl | he
          · exact ⟨info', hsome, rfl⟩
          · exact hheap.score e he
        · exact mem_cons.2 (hheap.covers p hp)
    · next htrim' => exact ⟨s', rfl, htrims.mono, Bool.eq_false_iff.2 htrim'⟩

end

end TxOrphanage

end Quarlcoin
