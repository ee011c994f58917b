import Quarlcoin.Orphanage.Trimming
/-!
# Calls of the orphanage

After every call all conditions of `SanityCheck` hold, and what a call trims is taken from
peers that exceed their share. A peer within its share keeps its orphans.
-/

namespace Quarlcoin

open Arith Shares List Finset TxOrphanage OrphanTx PeerDoSInfo

namespace TxOrphanage

/-! ## `LimitOrphans` -/

variable (limits : OrphanLimits)

/-- Limits that keep their value when a score is formed. -/
structure NarrowLimits : Prop where
  usage_pos : 0 < limits.reservedUsagePerPeer
  usage_lt : limits.reservedUsagePerPeer < 2 ^ 31
  latency_lt : limits.maxGlobalLatencyScore < 2 ^ 31

variable {limits : OrphanLimits} {tx : OrphanTx} {acc : TxOrphanage × List (Uint256 × ℤ)}
  {call : Call}

variable {T : Set OrphanTx} {s : TxOrphanage} {peer : ℤ}

theorem heapOk_dosPeers {maxLat maxMem : ℤ} (hfit : FitShares maxLat maxMem) (s : TxOrphanage) :
    HeapOk maxLat maxMem (fun _ => False) s (s.dosPeers maxLat maxMem) := by
  have hmem : ∀ e, e ∈ s.dosPeers maxLat maxMem ↔ ∃ info,
      s.peerOrphanageInfo.lookup e.1 = some info ∧ e.2 = info.getDosScore maxLat maxMem ∧
        e.2.size < e.2.fee := by
    intro e
    simp only [dosPeers, List.mem_filter, List.mem_map, decide_eq_true_eq]
    constructor
    · rintro ⟨⟨⟨p, info⟩, hentry, rfl⟩, hlt⟩
      exact ⟨info, AList.mem_lookup_iff.2 hentry, rfl, hlt⟩
    · rintro ⟨info, hlookup, heq, hlt⟩
      exact ⟨⟨⟨e.1, info⟩, AList.mem_lookup_iff.1 hlookup, by rw [← heq]⟩, hlt⟩
  refine ⟨?_, fun e he => ?_, fun p hp => .inr ?_⟩
  · have hkeys : (s.peerOrphanageInfo.entries.map fun entry =>
        (entry.1, entry.2.getDosScore maxLat maxMem)).map Prod.fst = s.peerOrphanageInfo.keys := by
      rw [List.map_map]
      rfl
    exact (hkeys ▸ s.peerOrphanageInfo.keys_nodup).sublist (List.filter_sublist.map _)
  · obtain ⟨info, hlookup, heq, -⟩ := (hmem e).1 he
    exact ⟨info, hlookup, heq⟩
  · obtain ⟨info, hlookup, hratio⟩ := (exceedsShare_iff hfit).1 hp
    have hsize : (0 : ℚ) < (info.getDosScore maxLat maxMem).size := by
      exact_mod_cast (getDosScore_spec hfit info).1
    rw [FeeFrac.ratio, lt_div_iff₀ hsize, one_mul, Int.cast_lt] at hratio
    exact List.mem_map.2 ⟨(p, info.getDosScore maxLat maxMem), (hmem _).2
      ⟨info, hlookup, rfl, hratio⟩, rfl⟩

theorem maxPeerLatencyScore_mul_le (s : TxOrphanage) :
    (s.maxPeerLatencyScore : ℤ) * s.numPeers ≤ s.limits.maxGlobalLatencyScore := by
  have hdiv := Nat.div_mul_le_self s.limits.maxGlobalLatencyScore (max s.numPeers 1)
  have hle : s.maxPeerLatencyScore * s.numPeers ≤ s.maxPeerLatencyScore * max s.numPeers 1 :=
    Nat.mul_le_mul_left _ (le_max_left _ _)
  exact_mod_cast hle.trans hdiv

/-- **`LimitOrphans` ends within the limits** and takes announcements only of peers
that exceed their share. -/
theorem limitOrphans_spec (hT : Set.InjOn wtxid T) (hin : InStep T s)
    (hfit : NarrowLimits s.limits) (hpeers : s.numPeers ≤ s.limits.maxGlobalLatencyScore) :
    ∃ s', s.limitOrphans = .ok s' ∧
      Trims s.maxPeerLatencyScore s.limits.reservedUsagePerPeer (fun _ => True) s s' ∧
      s'.needsTrim = false := by
  unfold limitOrphans
  split
  · next htrim =>
    have hlat := s.maxPeerLatencyScore_mul_le
    obtain ⟨peer, hpeer, -⟩ := hin.exists_exceeds hlat hfit.usage_pos htrim
    have hpos : 0 < s.numPeers := by
      rw [hin.numPeers_eq]
      exact card_pos.2 ⟨peer, hpeer⟩
    have hshare : 0 < s.maxPeerLatencyScore := by
      rw [maxPeerLatencyScore, max_eq_left hpos]
      exact Nat.div_pos hpeers hpos
    have hle : s.maxPeerLatencyScore ≤ s.limits.maxGlobalLatencyScore := Nat.div_le_self _ _
    have hlt := hfit.latency_lt
    have hshares : FitShares s.maxPeerLatencyScore s.limits.reservedUsagePerPeer :=
      ⟨by omega, by omega, hfit.usage_pos, hfit.usage_lt⟩
    rw [if_neg fun h => h.2 ⟨hshares.lat_pos, hshares.mem_pos⟩]
    exact trimLoop_spec hT ⟨hshares, hin, rfl, hlat⟩ (heapOk_dosPeers hshares s) htrim
      (Nat.lt_succ_self _)
  · next htrim => exact ⟨s, rfl, .refl s, Bool.eq_false_iff.2 htrim⟩

/-! ## `SanityCheck` -/

def reconstructedPeerInfo (s : TxOrphanage) (peer : ℤ) : Option PeerDoSInfo :=
  (s.announcementsOf peer).foldr (fun ann info => some ((info.getD ⟨0, 0, 0⟩).add ann.tx)) none

/-- The transactions, one for each wtxid. -/
def uniqueTxs (s : TxOrphanage) : List OrphanTx :=
  s.orphans.foldr (fun ann txs =>
    if txs.any fun tx => tx.wtxid = ann.tx.wtxid then txs else ann.tx :: txs) []

/-- The wtxids with a mark, once for each mark. -/
def markedWtxids (s : TxOrphanage) : List Uint256 :=
  (s.orphans.filter (·.reconsider)).map (·.tx.wtxid)

def allOutpoints (s : TxOrphanage) : List OutPoint := (s.orphans.flatMap (·.tx.vin)).dedup

/-- A sum over the records of all peers. -/
def summed (s : TxOrphanage) (f : PeerDoSInfo → ℤ) : ℤ :=
  (s.peerOrphanageInfo.entries.map fun entry => f entry.2).sum

/-- **The accounts are those of the announcements**: what `SanityCheck` asserts, with its sums as
integers. -/
structure Consistent (s : TxOrphanage) : Prop where
  oneMark : s.markedWtxids.Nodup
  numPeers : (s.orphans.map (·.announcer)).dedup.length = s.numPeers
  peerInfo : ∀ peer, s.reconstructedPeerInfo peer = s.peerOrphanageInfo.lookup peer
  reconsiderable : ∀ w, w ∈ s.reconsiderableWtxids ↔ w ∈ s.markedWtxids
  numOutpoints : s.allOutpoints.length = s.outpointToOrphanWtxids.entries.length
  outpoints : ∀ o w, w ∈ links s.outpointToOrphanWtxids o ↔
    ∃ ann ∈ s.orphans, o ∈ ann.tx.vin ∧ ann.tx.wtxid = w
  keys : ∀ o, o ∈ s.outpointToOrphanWtxids ↔ o ∈ s.allOutpoints
  unique_le : s.uniqueOrphans ≤ s.orphans.length
  orphans_le : s.orphans.length ≤ s.numPeers * s.uniqueOrphans
  unique : s.uniqueTxs.length = s.uniqueOrphans
  usage : (s.uniqueTxs.map memUsage).sum = s.uniqueOrphanUsage
  usage_le : s.uniqueOrphanUsage ≤ s.summed totalUsage
  scores : (s.uniqueTxs.map fun tx => tx.latencyScore - 1).sum = s.uniqueRoundedInputScores
  scores_le : s.uniqueRoundedInputScores + s.orphans.length ≤ s.summed PeerDoSInfo.totalLatencyScore
  withinLimits : s.needsTrim = false

/-- The assertions of `SanityCheck`; the latency scores of all peers are added up in
32 bits. -/
structure SanityCheck (s : TxOrphanage) : Prop extends Consistent s where
  sum_le : s.uniqueRoundedInputScores + s.orphans.length ≤
    s.summed PeerDoSInfo.totalLatencyScore % 2 ^ 32

theorem foldr_add (l : List Announcement) :
    l.foldr (fun ann info => some ((info.getD ⟨0, 0, 0⟩).add ann.tx)) (none : Option PeerDoSInfo) =
      if l = [] then none
      else some ⟨(l.map fun ann => ann.tx.memUsage).sum, (l.map fun _ => (1 : ℤ)).sum,
        (l.map fun ann => ann.tx.latencyScore).sum⟩ := by
  induction l with
  | nil => rfl
  | cons ann l ih =>
    rw [List.foldr_cons, ih]
    cases l with
    | nil => simp [add]
    | cons b l =>
      rw [if_neg (List.cons_ne_nil b l), Option.getD_some]
      simp only [add, List.map_cons, List.sum_cons]
      congr 2 <;> ring

theorem InStep.held_eq (h : InStep T s) (w : OrphanTx → ℤ) (peer : ℤ) :
    held s.announced w peer = ((s.announcementsOf peer).map fun ann => w ann.tx).sum := by
  have hnodup : ((s.announcementsOf peer).map pair).Nodup :=
    h.nodup.sublist (List.filter_sublist.map pair)
  have hset : ((s.announcementsOf peer).map pair).toFinset =
      s.announced.filter fun y => y.2 = peer := by
    ext y
    simp only [List.mem_toFinset, List.mem_map, announcementsOf, List.mem_filter,
      decide_eq_true_eq, Finset.mem_filter, mem_announced]
    constructor
    · rintro ⟨ann, ⟨hann, hp⟩, rfl⟩
      exact ⟨⟨ann, hann, rfl⟩, hp⟩
    · rintro ⟨⟨ann, hann, rfl⟩, hp⟩
      exact ⟨ann, ⟨hann, hp⟩, rfl⟩
  rw [held, ← hset, List.sum_toFinset _ hnodup, List.map_map]
  rfl

theorem InStep.reconstructedPeerInfo_eq (h : InStep T s) (peer : ℤ) :
    s.reconstructedPeerInfo peer = s.peerOrphanageInfo.lookup peer := by
  rw [h.info, reconstructedPeerInfo, foldr_add, infoOf]
  simp [h.held_eq, mem_holders_announced]

theorem uniqueTxs_spec (hT : Set.InjOn wtxid T) (h : InStep T s) :
    s.uniqueTxs.Nodup ∧ s.uniqueTxs.toFinset = items s.announced := by
  have hall : ∀ l : List Announcement, (∀ ann ∈ l, ann.tx ∈ T) →
      let txs := l.foldr (fun ann txs =>
        if txs.any fun tx => tx.wtxid = ann.tx.wtxid then txs else ann.tx :: txs) []
      txs.Nodup ∧ ∀ tx, tx ∈ txs ↔ ∃ ann ∈ l, ann.tx = tx := by
    intro l
    induction l with
    | nil => exact fun _ => ⟨List.nodup_nil, by simp⟩
    | cons ann l ih =>
      intro hl
      obtain ⟨hnodup, hmem⟩ := ih fun b hb => hl b (List.mem_cons_of_mem ann hb)
      rw [List.foldr_cons]
      generalize l.foldr _ [] = txs at hnodup hmem
      have hany : ∀ tx ∈ txs, tx.wtxid = ann.tx.wtxid → tx = ann.tx := by
        intro tx htx heq
        obtain ⟨b, hb, rfl⟩ := (hmem tx).1 htx
        exact hT (hl b (List.mem_cons_of_mem ann hb)) (hl ann List.mem_cons_self) heq
      simp only [List.mem_cons, exists_eq_or_imp]
      split
      · next hin =>
        obtain ⟨tx, htx, heq⟩ := List.any_eq_true.1 hin
        have hann : ann.tx ∈ txs := hany tx htx (of_decide_eq_true heq) ▸ htx
        refine ⟨hnodup, fun tx => ⟨fun h => .inr ((hmem tx).1 h), ?_⟩⟩
        rintro (rfl | h)
        · exact hann
        · exact (hmem tx).2 h
      · next hin =>
        have hann : ann.tx ∉ txs := fun hmem =>
          hin (List.any_eq_true.2 ⟨ann.tx, hmem, decide_eq_true rfl⟩)
        refine ⟨List.nodup_cons.2 ⟨hann, hnodup⟩, fun tx => ?_⟩
        rw [List.mem_cons, hmem tx, eq_comm]
  obtain ⟨hnodup, hmem⟩ := hall s.orphans h.known
  refine ⟨hnodup, ?_⟩
  ext tx
  rw [List.mem_toFinset, mem_items_announced]
  exact hmem tx

theorem InStep.summed_eq (h : InStep T s) {f : PeerDoSInfo → ℤ} {w : OrphanTx → ℤ}
    (hf : ∀ peer ∈ holders s.announced, (infoOf s.announced peer).map f =
      some (held s.announced w peer)) : s.summed f = ∑ y ∈ s.announced, w y.1 := by
  have hentries : s.peerOrphanageInfo.entries.map (fun entry => f entry.2) =
      s.peerOrphanageInfo.keys.map fun p => held s.announced w p := by
    rw [AList.keys, List.keys, List.map_map]
    refine map_congr_left fun entry hentry => ?_
    have hlookup : s.peerOrphanageInfo.lookup entry.1 = some entry.2 :=
      AList.mem_lookup_iff.2 hentry
    have hholder : entry.1 ∈ holders s.announced :=
      h.mem_keys_iff.1 (AList.lookup_isSome.1 (by rw [hlookup]; rfl))
    have hheld := hf entry.1 hholder
    rw [← h.info, hlookup] at hheld
    exact Option.some.inj hheld
  rw [summed, hentries, ← sum_toFinset _ s.peerOrphanageInfo.keys_nodup, h.keys_toFinset, sum_held]

theorem InStep.summedUsage_eq (h : InStep T s) :
    s.summed totalUsage = ∑ y ∈ s.announced, y.1.memUsage :=
  h.summed_eq fun peer hpeer => by rw [infoOf, if_pos hpeer]; rfl

theorem InStep.summedLatency_eq (h : InStep T s) :
    s.summed PeerDoSInfo.totalLatencyScore = ∑ y ∈ s.announced, y.1.latencyScore :=
  h.summed_eq fun peer hpeer => by rw [infoOf, if_pos hpeer]; rfl

theorem latencyScore_le (h : tx.weight ≤ maxStandardTxWeight) : tx.latencyScore ≤ 976 := by
  have hge := tx.weight_ge
  rw [maxStandardTxWeight] at h
  unfold latencyScore
  omega

/-- Within the limits the latency scores of all peers together fit into 32 bits: an
announcement has one of at most 976. -/
theorem InStep.summedLatency_lt (h : InStep T s)
    (hlt : 976 * s.limits.maxGlobalLatencyScore < 2 ^ 32) (htrim : s.needsTrim = false) :
    s.summed PeerDoSInfo.totalLatencyScore < 2 ^ 32 := by
  have hle : ∑ y ∈ s.announced, y.1.latencyScore ≤ s.announced.card • (976 : ℤ) := by
    refine sum_le_card_nsmul _ _ _ fun y hy => ?_
    obtain ⟨ann, hann, rfl⟩ := mem_announced.1 hy
    exact latencyScore_le (h.light ann hann)
  have hscores : 0 ≤ s.uniqueRoundedInputScores := by
    rw [h.scores]
    exact sum_nonneg fun tx _ => Int.sub_nonneg_of_le (latencyScore_pos tx)
  rw [needsTrim, decide_eq_false_iff_not, totalLatencyScore, h.length_orphans] at htrim
  rw [h.summedLatency_eq]
  rw [nsmul_eq_mul] at hle
  omega

theorem InStep.mem_links (h : InStep T s) {o : OutPoint} {w : Uint256} :
    w ∈ links s.outpointToOrphanWtxids o ↔
      ∃ ann ∈ s.orphans, o ∈ ann.tx.vin ∧ ann.tx.wtxid = w := by
  simp only [h.linked, mem_items_announced, exists_exists_and_eq_and]

/-- No key is left without a link, so the keys are the outpoints that orphans spend. -/
theorem InStep.mem_keys (h : InStep T s) (o : OutPoint) :
    o ∈ s.outpointToOrphanWtxids ↔ o ∈ s.allOutpoints := by
  have hlinks : o ∈ s.outpointToOrphanWtxids ↔ links s.outpointToOrphanWtxids o ≠ [] := by
    rw [← AList.lookup_isSome, links]
    have hne := h.noEmptyKey o
    cases hlookup : s.outpointToOrphanWtxids.lookup o with
    | none => simp
    | some l =>
      rw [hlookup] at hne
      simpa using hne
  rw [hlinks, allOutpoints, List.mem_dedup, List.mem_flatMap]
  constructor
  · intro hne
    obtain ⟨w, hw⟩ := List.exists_mem_of_ne_nil _ hne
    obtain ⟨ann, hann, ho, -⟩ := h.mem_links.1 hw
    exact ⟨ann, hann, ho⟩
  · rintro ⟨ann, hann, ho⟩
    exact List.ne_nil_of_mem (h.mem_links.2 ⟨ann, hann, ho, rfl⟩)

/-- **The accounts pass the check** when no limit is exceeded. -/
theorem InStep.consistent (hT : Set.InjOn wtxid T) (h : InStep T s)
    (htrim : s.needsTrim = false) : Consistent s := by
  obtain ⟨hnodup, hunique⟩ := uniqueTxs_spec hT h
  have hstored : ∀ w : OrphanTx → ℤ, (s.uniqueTxs.map w).sum = stored s.announced w := by
    intro w
    rw [stored, ← hunique, List.sum_toFinset w hnodup]
  have hcount : s.uniqueOrphans = (items s.announced).card := by
    rw [h.unique, stored, sum_const, nsmul_one]
  refine ⟨?_, ?_, h.reconstructedPeerInfo_eq, fun w => ?_, ?_, fun _ _ => h.mem_links, h.mem_keys,
    ?_, ?_, ?_, ?_, ?_, ?_, ?_, htrim⟩
  · refine List.Nodup.map_on (fun a ha b hb heq => ?_)
      ((List.Nodup.of_map pair h.nodup).filter _)
    obtain ⟨ha, hamark⟩ := List.mem_filter.1 ha
    obtain ⟨hb, hbmark⟩ := List.mem_filter.1 hb
    exact h.oneMark a ha b hb hamark hbmark heq
  · rw [h.numPeers_eq, ← List.toFinset_card_of_nodup (List.nodup_dedup _)]
    congr 1
    ext p
    simp only [List.mem_toFinset, List.mem_dedup, List.mem_map, mem_holders, mem_announced]
    constructor
    · rintro ⟨ann, hann, rfl⟩
      exact ⟨ann.tx, ann, hann, rfl⟩
    · rintro ⟨tx, ann, hann, heq⟩
      exact ⟨ann, hann, (Prod.mk.inj heq).2⟩
  · rw [h.marked]
    simp only [markedWtxids, List.mem_map, List.mem_filter, and_assoc]
  · have hperm : s.allOutpoints.Perm s.outpointToOrphanWtxids.keys :=
      (List.perm_ext_iff_of_nodup (List.nodup_dedup _)
        s.outpointToOrphanWtxids.keys_nodup).2 fun o => (h.mem_keys o).symm
    rw [hperm.length_eq, AList.keys, List.keys, List.length_map]
  · rw [hcount, h.length_orphans]
    exact_mod_cast card_image_le
  · have hsub : s.announced ⊆ items s.announced ×ˢ holders s.announced := fun y hy =>
      mem_product.2 ⟨mem_image_of_mem _ hy, mem_image_of_mem _ hy⟩
    have hcard := card_le_card hsub
    rw [card_product, mul_comm] at hcard
    rw [hcount, h.length_orphans, h.numPeers_eq]
    exact_mod_cast hcard
  · rw [hcount, ← hunique, List.toFinset_card_of_nodup hnodup]
  · rw [hstored, h.usage]
  · rw [h.usage, h.summedUsage_eq]
    exact stored_le memUsage_nonneg
  · rw [hstored, h.scores]
  · rw [h.summedLatency_eq]
    exact h.totalLatencyScore_le

/-- The check passes as it is made where its sum does not wrap. -/
theorem Consistent.sanityCheck (h : Consistent s)
    (hlt : s.summed PeerDoSInfo.totalLatencyScore < 2 ^ 32)
    (hscores : 0 ≤ s.uniqueRoundedInputScores) : SanityCheck s := by
  have hle := h.scores_le
  refine ⟨h, ?_⟩
  rw [Int.emod_eq_of_lt (by omega) hlt]
  exact hle

/-! ## Calls -/

/-- A call of the orphanage. -/
inductive Call
  | addTx (tx : OrphanTx) (peer : ℤ)
  | addAnnouncer (wtxid : Uint256) (peer : ℤ)
  | eraseTx (wtxid : Uint256)
  | eraseForPeer (peer : ℤ)
  | eraseForBlock (block : List (List OutPoint))
  | addChildrenToWorkSet (txid : Uint256) (vout : ℕ) (draw : Uint256 → ℕ)
  | getTxToReconsider (peer : ℤ)

def exec (s : TxOrphanage) : Call → Except OrphanFailure TxOrphanage
  | .addTx tx peer => (·.1) <$> s.addTx tx peer
  | .addAnnouncer wtxid peer => (·.1) <$> s.addAnnouncer wtxid peer
  | .eraseTx wtxid => (·.1) <$> s.eraseTx wtxid
  | .eraseForPeer peer => s.eraseForPeer peer
  | .eraseForBlock block => s.eraseForBlock block
  | .addChildrenToWorkSet txid vout draw => .ok (s.addChildrenToWorkSet txid vout draw).1
  | .getTxToReconsider peer => .ok (s.getTxToReconsider peer).1

/-- The orphanage when the call comes to `LimitOrphans`, or ends without it. -/
def untrimmed (s : TxOrphanage) : Call → TxOrphanage
  | .addTx tx peer =>
    if tx.weight > maxStandardTxWeight then s
    else if s.haveTxFromPeer tx.wtxid peer then s
    else s.announce tx peer
  | .addAnnouncer wtxid peer =>
    match s.orphans.find? fun ann => ann.tx.wtxid = wtxid with
    | none => s
    | some ann => if s.haveTxFromPeer wtxid peer then s else s.announce ann.tx peer
  | .eraseTx wtxid => s.eraseTxInternal wtxid
  | .eraseForPeer peer => (s.announcementsOf peer).foldl erase s
  | .eraseForBlock block =>
    if s.orphans = [] then s else (s.wtxidsToErase block).foldl eraseTxInternal s
  | .addChildrenToWorkSet txid vout draw => (s.addChildrenToWorkSet txid vout draw).1
  | .getTxToReconsider peer => (s.getTxToReconsider peer).1

theorem limitOrphans_of_not_needsTrim (h : s.needsTrim = false) : s.limitOrphans = .ok s := by
  rw [limitOrphans, h]
  rfl

/-- Marks do not count. -/
def SameCounts (s s' : TxOrphanage) : Prop :=
  s'.limits = s.limits ∧ s'.orphans.length = s.orphans.length ∧
    s'.peerOrphanageInfo = s.peerOrphanageInfo ∧ s'.uniqueOrphanUsage = s.uniqueOrphanUsage ∧
      s'.uniqueRoundedInputScores = s.uniqueRoundedInputScores

theorem SameCounts.refl (s : TxOrphanage) : SameCounts s s := ⟨rfl, rfl, rfl, rfl, rfl⟩

theorem SameCounts.needsTrim_eq {s s' : TxOrphanage} (h : SameCounts s s') :
    s'.needsTrim = s.needsTrim := by
  obtain ⟨hlimits, hlen, hinfo, husage, hscores⟩ := h
  refine decide_eq_decide.2 ?_
  simp only [totalLatencyScore, maxGlobalUsage, numPeers, hlimits, hlen, hinfo, husage, hscores]

theorem SameCounts.trans {s s' s'' : TxOrphanage} (h : SameCounts s s') (h' : SameCounts s' s'') :
    SameCounts s s'' :=
  ⟨h'.1.trans h.1, h'.2.1.trans h.2.1, h'.2.2.1.trans h.2.2.1, h'.2.2.2.1.trans h.2.2.2.1,
    h'.2.2.2.2.trans h.2.2.2.2⟩

variable (draw : Uint256 → ℕ)

theorem addToWorkSet_spec (h : InStep T acc.1) (w : Uint256) :
    InStep T (addToWorkSet draw acc w).1 ∧ SameCounts acc.1 (addToWorkSet draw acc w).1 := by
  unfold addToWorkSet
  simp only
  split
  · exact ⟨h, .refl _⟩
  next hnot =>
  split
  · exact ⟨h, .refl _⟩
  next ann hann =>
  obtain ⟨hmem, hw⟩ := mem_filter.1 (mem_of_getElem? hann)
  have hw : ann.tx.wtxid = w := of_decide_eq_true hw
  subst hw
  exact ⟨h.mark hmem hnot, rfl, length_map _, rfl, rfl, rfl⟩

theorem foldl_addToWorkSet_spec (ws : List Uint256) (h : InStep T acc.1) :
    InStep T (ws.foldl (addToWorkSet draw) acc).1 ∧
      SameCounts acc.1 (ws.foldl (addToWorkSet draw) acc).1 := by
  refine foldlRecOn ws _
    (motive := fun t : TxOrphanage × _ => InStep T t.1 ∧ SameCounts acc.1 t.1)
    ⟨h, .refl _⟩ fun t ht w _ => ?_
  obtain ⟨hin, hsame⟩ := addToWorkSet_spec draw ht.1 w
  exact ⟨hin, ht.2.trans hsame⟩

theorem addChildrenToWorkSet_spec (h : InStep T s) (txid : Uint256) (vout : ℕ)
    (draw : Uint256 → ℕ) : InStep T (s.addChildrenToWorkSet txid vout draw).1 ∧
      SameCounts s (s.addChildrenToWorkSet txid vout draw).1 := by
  refine foldlRecOn (range vout) _
    (motive := fun t : TxOrphanage × _ => InStep T t.1 ∧ SameCounts s t.1)
    ⟨h, .refl _⟩ fun t ht i _ => ?_
  obtain ⟨hin, hsame⟩ := foldl_addToWorkSet_spec draw _ ht.1
  exact ⟨hin, ht.2.trans hsame⟩

theorem getTxToReconsider_spec (h : InStep T s) (peer : ℤ) :
    InStep T (s.getTxToReconsider peer).1 ∧ SameCounts s (s.getTxToReconsider peer).1 := by
  unfold getTxToReconsider
  split
  · exact ⟨h, .refl _⟩
  · next ann hann =>
    obtain ⟨hof, hmark⟩ := mem_filter.1 (Choice.best_mem hann)
    exact ⟨h.unmark (mem_filter.1 hof).1 hmark, rfl, length_map _, rfl, rfl, rfl⟩

theorem nodup_orphans (h : InStep T s) : s.orphans.Nodup := List.Nodup.of_map pair h.nodup

section

variable (hT : Set.InjOn wtxid T) (h : InStep T s)
include hT h

theorem foldl_erase_spec {l : List Announcement} (hnodup : l.Nodup)
    (hsub : ∀ ann ∈ l, ann ∈ s.orphans) :
    InStep T (l.foldl erase s) ∧ (l.foldl erase s).limits = s.limits ∧
      (∀ ann, ann ∈ (l.foldl erase s).orphans ↔ ann ∈ s.orphans ∧ ann ∉ l) := by
  induction l generalizing s with
  | nil => exact ⟨h, rfl, fun ann => by simp⟩
  | cons a l ih =>
    obtain ⟨hnot, hnodup⟩ := nodup_cons.1 hnodup
    have ha := hsub a mem_cons_self
    have hmem : ∀ ann, ann ∈ (s.erase a).orphans ↔ ann ≠ a ∧ ann ∈ s.orphans :=
      fun ann => (nodup_orphans h).mem_erase_iff
    obtain ⟨hin, hlimits, hleft⟩ := ih (h.erase hT ha) hnodup fun ann hann =>
      (hmem ann).2 ⟨fun heq => hnot (heq ▸ hann), hsub ann (mem_cons_of_mem a hann)⟩
    refine ⟨hin, hlimits, fun ann => ?_⟩
    rw [List.foldl_cons, hleft, hmem, List.mem_cons, not_or]
    tauto

theorem eraseTxInternal_spec (w : Uint256) :
    InStep T (s.eraseTxInternal w) ∧ (s.eraseTxInternal w).limits = s.limits ∧
      ∀ ann ∈ (s.eraseTxInternal w).orphans, ann ∈ s.orphans := by
  obtain ⟨hin, hlimits, hleft⟩ := foldl_erase_spec hT h
    ((nodup_orphans h).filter fun ann => ann.tx.wtxid = w) fun ann hann => (mem_filter.1 hann).1
  exact ⟨hin, hlimits, fun ann hann => ((hleft ann).1 hann).1⟩

theorem foldl_eraseTxInternal_spec (ws : List Uint256) :
    InStep T (ws.foldl eraseTxInternal s) ∧ (ws.foldl eraseTxInternal s).limits = s.limits := by
  refine foldlRecOn ws _ (motive := fun t => InStep T t ∧ t.limits = s.limits)
    ⟨h, rfl⟩ fun t ht w _ => ?_
  obtain ⟨hin, hlimits, -⟩ := eraseTxInternal_spec hT ht.1 w
  exact ⟨hin, hlimits.trans ht.2⟩

end

/-- The transactions of a call are from the set. -/
def Call.From (T : Set OrphanTx) : Call → Prop
  | .addTx tx _ => tx ∈ T
  | _ => True

theorem not_mem_announced_of_not_haveTxFromPeer
    (h : ¬s.haveTxFromPeer tx.wtxid peer = true) : (tx, peer) ∉ s.announced := by
  intro hmem
  obtain ⟨ann, hann, heq⟩ := mem_announced.1 hmem
  obtain ⟨htx, hpeer⟩ := Prod.mk.inj heq
  refine h (any_eq_true.2 ⟨ann, hann, decide_eq_true ⟨?_, hpeer⟩⟩)
  rw [htx]

/-- **Before anything is trimmed** the accounts are in step. -/
theorem InStep.untrimmed (hT : Set.InjOn wtxid T) (h : InStep T s)
    (hfrom : call.From T) : InStep T (s.untrimmed call) ∧ (s.untrimmed call).limits = s.limits := by
  cases call with
  | addTx tx peer =>
    simp only [TxOrphanage.untrimmed]
    split
    · exact ⟨h, rfl⟩
    next hlight =>
    split
    · exact ⟨h, rfl⟩
    · next hnew =>
      exact ⟨h.announce hT hfrom (not_lt.1 hlight)
        (not_mem_announced_of_not_haveTxFromPeer hnew), rfl⟩
  | addAnnouncer w peer =>
    simp only [TxOrphanage.untrimmed]
    split
    · exact ⟨h, rfl⟩
    next ann hfind =>
    have hann := mem_of_find?_eq_some hfind
    have hw : ann.tx.wtxid = w := by simpa using find?_some hfind
    subst hw
    split
    · exact ⟨h, rfl⟩
    · next hnew =>
      exact ⟨h.announce hT (h.known ann hann) (h.light ann hann)
        (not_mem_announced_of_not_haveTxFromPeer hnew), rfl⟩
  | eraseTx w =>
    obtain ⟨hin, hlimits, -⟩ := eraseTxInternal_spec hT h w
    exact ⟨hin, hlimits⟩
  | eraseForPeer peer =>
    obtain ⟨hin, hlimits, -⟩ := foldl_erase_spec hT h
      ((nodup_orphans h).filter fun ann => ann.announcer = peer)
      fun ann hann => (mem_filter.1 hann).1
    exact ⟨hin, hlimits⟩
  | eraseForBlock block =>
    simp only [TxOrphanage.untrimmed]
    split
    · exact ⟨h, rfl⟩
    · exact foldl_eraseTxInternal_spec hT h _
  | addChildrenToWorkSet txid vout draw =>
    obtain ⟨hin, hsame⟩ := addChildrenToWorkSet_spec h txid vout draw
    exact ⟨hin, hsame.1⟩
  | getTxToReconsider peer =>
    obtain ⟨hin, hsame⟩ := getTxToReconsider_spec h peer
    exact ⟨hin, hsame.1⟩

/-- Within the limits every call ends like `LimitOrphans`, which then does nothing
where the source does not call it. -/
theorem InStep.exec_eq (h : InStep T s) (htrim : s.needsTrim = false) (call : Call) :
    s.exec call = (s.untrimmed call).limitOrphans := by
  have hok := limitOrphans_of_not_needsTrim htrim
  cases call with
  | addTx tx peer =>
    simp only [exec, addTx, TxOrphanage.untrimmed]
    split
    · exact hok.symm
    · split
      · exact hok.symm
      · cases (s.announce tx peer).limitOrphans <;> rfl
  | addAnnouncer w peer =>
    simp only [exec, addAnnouncer, TxOrphanage.untrimmed]
    cases s.orphans.find? fun ann => decide (ann.tx.wtxid = w) with
    | none => exact hok.symm
    | some ann =>
      simp only
      split
      · exact hok.symm
      · cases (s.announce ann.tx peer).limitOrphans <;> rfl
  | eraseTx w =>
    simp only [exec, eraseTx, TxOrphanage.untrimmed]
    cases (s.eraseTxInternal w).limitOrphans <;> rfl
  | eraseForPeer peer =>
    simp only [exec, eraseForPeer, TxOrphanage.untrimmed]
    split
    · next hnil =>
      rw [hnil]
      exact hok.symm
    · rfl
  | eraseForBlock block =>
    simp only [exec, eraseForBlock, TxOrphanage.untrimmed]
    split
    · exact hok.symm
    · rfl
  | addChildrenToWorkSet txid vout draw =>
    obtain ⟨-, hsame⟩ := addChildrenToWorkSet_spec h txid vout draw
    exact (limitOrphans_of_not_needsTrim (hsame.needsTrim_eq.trans htrim)).symm
  | getTxToReconsider peer =>
    obtain ⟨-, hsame⟩ := getTxToReconsider_spec h peer
    exact (limitOrphans_of_not_needsTrim (hsame.needsTrim_eq.trans htrim)).symm

/-! ## Runs -/

def run (s : TxOrphanage) (calls : List Call) : Except OrphanFailure TxOrphanage :=
  calls.foldlM exec s

/-- A call with a transaction of the set, and no more peers than there is latency score to share.
-/
def Allowed (T : Set OrphanTx) (s : TxOrphanage) (call : Call) : Prop :=
  call.From T ∧ (s.untrimmed call).numPeers ≤ s.limits.maxGlobalLatencyScore

/-- Every call of a run is allowed when it is made. -/
def AllAllowed (T : Set OrphanTx) : TxOrphanage → List Call → Prop
  | _, [] => True
  | s, call :: calls => Allowed T s call ∧ ∀ s', s.exec call = .ok s' → AllAllowed T s' calls

/-- **One call.** -/
theorem InStep.exec (hT : Set.InjOn wtxid T) (h : InStep T s) (hfit : NarrowLimits s.limits)
    (htrim : s.needsTrim = false) (hallowed : Allowed T s call) :
    ∃ s', s.exec call = .ok s' ∧ InStep T s' ∧ s'.limits = s.limits ∧ s'.needsTrim = false ∧
      Trims (s.untrimmed call).maxPeerLatencyScore s.limits.reservedUsagePerPeer (fun _ => True)
        (s.untrimmed call) s' := by
  obtain ⟨hin, hlimits⟩ := h.untrimmed hT hallowed.1
  have hpeers := hallowed.2
  rw [← hlimits] at hfit hpeers
  obtain ⟨s', hok, htrims, hdone⟩ := limitOrphans_spec hT hin hfit hpeers
  refine ⟨s', (h.exec_eq htrim call).trans hok, htrims.inStep hT hin,
    htrims.limits_eq.trans hlimits, hdone, ?_⟩
  rw [← hlimits]
  exact htrims

/-- **All calls of a run.** -/
theorem InStep.run (hT : Set.InjOn wtxid T) (calls : List Call) (h : InStep T s)
    (hfit : NarrowLimits s.limits) (htrim : s.needsTrim = false) (hallowed : AllAllowed T s calls) :
    ∃ s', s.run calls = .ok s' ∧ InStep T s' ∧ s'.limits = s.limits ∧ s'.needsTrim = false := by
  induction calls generalizing s with
  | nil => exact ⟨s, rfl, h, rfl, htrim⟩
  | cons call calls ih =>
    obtain ⟨hcall, hrest⟩ := hallowed
    obtain ⟨s₁, hok, hin, hlimits, hdone, -⟩ := h.exec hT hfit htrim hcall
    obtain ⟨s₂, hrun, hin', hlimits', hdone'⟩ := ih hin (hlimits ▸ hfit) hdone (hrest s₁ hok)
    refine ⟨s₂, ?_, hin', hlimits'.trans hlimits, hdone'⟩
    rw [run, foldlM_cons, hok]
    exact hrun

/-- A call by which a peer announces something. -/
def Call.AnnouncedBy (announcer : ℤ) : Call → Prop
  | .addTx _ peer => peer = announcer
  | .addAnnouncer _ peer => peer = announcer
  | _ => False

/-- What another peer announces changes nothing of a peer before the trimming. -/
theorem announcementsOf_untrimmed {announcer : ℤ} (hcall : call.AnnouncedBy announcer)
    (hne : peer ≠ announcer) :
    (s.untrimmed call).announcementsOf peer = s.announcementsOf peer := by
  have hannounce : ∀ tx, (s.announce tx announcer).announcementsOf peer = s.announcementsOf peer :=
    fun tx => filter_cons_of_neg (by simpa using hne.symm)
  cases call with
  | addTx tx peer' =>
    cases hcall
    simp only [untrimmed]
    split
    · rfl
    · split
      · rfl
      · exact hannounce tx
  | addAnnouncer w peer' =>
    cases hcall
    simp only [untrimmed]
    split
    · rfl
    · next ann _ =>
      split
      · rfl
      · exact hannounce ann.tx
  | _ => cases hcall

theorem needsTrim_empty (hpos : 0 < limits.reservedUsagePerPeer) :
    (empty limits).needsTrim = false := by
  refine decide_eq_false fun h => ?_
  simp only [totalLatencyScore, maxGlobalUsage, numPeers, empty, length_nil] at h
  rcases h with h | h
  · omega
  · simp at h
    omega

/-- What holds between two calls, whether or not a sum of 32 bits is enough. -/
structure Sane (s : TxOrphanage) : Prop where
  consistent : Consistent s
  check : 976 * s.limits.maxGlobalLatencyScore < 2 ^ 32 → SanityCheck s

theorem InStep.sane (hT : Set.InjOn wtxid T) (h : InStep T s) (htrim : s.needsTrim = false) :
    Sane s where
  consistent := h.consistent hT htrim
  check hlt := by
    refine (h.consistent hT htrim).sanityCheck (h.summedLatency_lt hlt htrim) ?_
    rw [h.scores]
    exact sum_nonneg fun tx _ => Int.sub_nonneg_of_le (latencyScore_pos tx)

def smallOrphan (wtxid : Uint256) : OrphanTx where
  wtxid := wtxid
  vin := [⟨2, 0⟩]
  weight := 400
  weight_ge := by decide

theorem injOn_smallOrphan : Set.InjOn wtxid (Set.range smallOrphan) := by
  rintro _ ⟨a, rfl⟩ _ ⟨b, rfl⟩ h
  exact congrArg smallOrphan h

def defaultLimits : OrphanLimits where
  maxGlobalLatencyScore := 3000
  reservedUsagePerPeer := 404000

end TxOrphanage

end Quarlcoin
