import Quarlcoin.Common.Shares
import Quarlcoin.Orphanage.Model
/-!
# The accounts of the orphanage

Everything the orphanage counts is determined by the set of its announcements, as
pairs of a transaction and a peer, and every call keeps the counters, the index
of outpoints and the marks in step with that set.
-/

namespace Quarlcoin

open Arith Shares List Finset OrphanTx PeerDoSInfo

namespace TxOrphanage

/-! ## The index of outpoints -/

variable (index : AList fun _ : OutPoint => List Uint256)

def links (o : OutPoint) : List Uint256 :=
  (index.lookup o).getD []

/-- No key is left without a wtxid. -/
def NoEmptyKey : Prop :=
  ∀ o, index.lookup o ≠ some []

variable {index : AList fun _ : OutPoint => List Uint256} {w x : Uint256} {o p : OutPoint}
  {vin : List OutPoint}

/-- A value is changed, and its key goes when it is empty. -/
theorem lookup_adjust {κ γ : Type} [DecidableEq κ] {m m' : AList fun _ : κ => γ} {k : κ}
    {E : γ → Prop} [DecidablePred E] {f : γ → γ} (hnone : m.lookup k = none → m' = m)
    (hsome : ∀ v, m.lookup k = some v →
      m' = if E (f v) then m.erase k else m.insert k (f v)) (k' : κ) : m'.lookup k' =
      if k = k' then (m.lookup k').bind fun v => if E (f v) then none else some (f v)
      else m.lookup k' := by
  cases hlookup : m.lookup k with
  | none =>
    rw [hnone hlookup]
    split
    · next hk => rw [← hk, hlookup, Option.bind_none]
    · rfl
  | some v =>
    rw [hsome v hlookup]
    by_cases hk : k = k'
    · rw [if_pos hk, ← hk, hlookup, Option.bind_some]
      split
      · exact AList.lookup_erase ..
      · exact AList.lookup_insert ..
    · split
      · exact AList.lookup_erase_ne (Ne.symm hk)
      · exact AList.lookup_insert_ne (Ne.symm hk)

theorem lookup_unlink : (unlink w index p).lookup o = if p = o then (index.lookup o).bind fun l =>
      if l.filter (· ≠ w) = [] then none else some (l.filter (· ≠ w)) else index.lookup o :=
  lookup_adjust (E := (· = [])) (fun h => by simp only [unlink, h])
    (fun l h => by simp only [unlink, h]) o

/-- Unlinking takes out one link. -/
theorem mem_links_unlink :
    x ∈ links (unlink w index p) o ↔ x ∈ links index o ∧ (o = p → x ≠ w) := by
  rw [links, lookup_unlink]
  split
  · next heq =>
    subst heq
    rw [links]
    cases index.lookup p with
    | none => simp
    | some l =>
      rw [Option.bind_some]
      split
      · next hnil => simpa using filter_eq_nil_iff.1 hnil x
      · simp
  · next hne => exact ⟨fun hx => ⟨hx, fun h => absurd h.symm hne⟩, fun h => h.1⟩

theorem noEmptyKey_unlink (h : NoEmptyKey index) : NoEmptyKey (unlink w index p) := by
  intro o
  rw [lookup_unlink]
  split
  · cases index.lookup o with
    | none => simp
    | some l =>
      rw [Option.bind_some]
      split
      · simp
      · next hne => exact fun heq => hne (Option.some.inj heq)
  · exact h o

/-- An erased transaction has no links left. -/
theorem mem_links_foldl_unlink :
    x ∈ links (vin.foldl (unlink w) index) o ↔ x ∈ links index o ∧ (o ∈ vin → x ≠ w) := by
  induction vin generalizing index with
  | nil => simp
  | cons p vin ih =>
    rw [List.foldl_cons, ih, mem_links_unlink, List.mem_cons]
    tauto

/-- Linking adds one link. -/
theorem mem_links_link : x ∈ links (link w index p) o ↔ x ∈ links index o ∨ (o = p ∧ x = w) := by
  by_cases ho : o = p
  · subst ho
    rw [links, link, AList.lookup_insert, Option.getD_some, mem_insert_iff, or_comm]
    simp only [true_and]
    rfl
  · rw [links, link, AList.lookup_insert_ne ho]
    simp only [ho, false_and, or_false]
    rfl

theorem noEmptyKey_link (h : NoEmptyKey index) : NoEmptyKey (link w index p) := by
  intro o
  by_cases ho : o = p
  · subst ho
    rw [link, AList.lookup_insert]
    intro heq
    have hmem : w ∈ ((index.lookup o).getD []).insert w := mem_insert_self
    rw [Option.some.inj heq] at hmem
    exact not_mem_nil hmem
  · rw [link, AList.lookup_insert_ne ho]
    exact h o

/-- A new transaction is linked from its inputs. -/
theorem mem_links_foldl_link :
    x ∈ links (vin.foldl (link w) index) o ↔ x ∈ links index o ∨ (o ∈ vin ∧ x = w) := by
  induction vin generalizing index with
  | nil => simp
  | cons p vin ih =>
    rw [List.foldl_cons, ih, mem_links_link, List.mem_cons]
    tauto

/-! ## The announcements -/

/-- The transaction and the peer of an announcement. -/
def pair (ann : Announcement) : OrphanTx × ℤ := (ann.tx, ann.announcer)

/-- The announcements, as a set of pairs. -/
def announced (s : TxOrphanage) : Finset (OrphanTx × ℤ) := (s.orphans.map pair).toFinset

/-- What a peer's record has to be. -/
def infoOf (A : Finset (OrphanTx × ℤ)) (peer : ℤ) : Option PeerDoSInfo :=
  if peer ∈ holders A then
    some ⟨held A memUsage peer, held A (fun _ => 1) peer, held A latencyScore peer⟩
  else none

/-- Everything is in step with the announcements, of transactions with different wtxids. -/
structure InStep (T : Set OrphanTx) (s : TxOrphanage) : Prop where
  nodup : (s.orphans.map pair).Nodup
  known : ∀ ann ∈ s.orphans, ann.tx ∈ T
  light : ∀ ann ∈ s.orphans, ann.tx.weight ≤ maxStandardTxWeight
  info : ∀ peer, s.peerOrphanageInfo.lookup peer = infoOf s.announced peer
  unique : s.uniqueOrphans = stored s.announced fun _ => 1
  usage : s.uniqueOrphanUsage = stored s.announced memUsage
  scores : s.uniqueRoundedInputScores = stored s.announced fun tx => tx.latencyScore - 1
  linked : ∀ o w, w ∈ links s.outpointToOrphanWtxids o ↔
    ∃ tx ∈ items s.announced, o ∈ tx.vin ∧ tx.wtxid = w
  noEmptyKey : NoEmptyKey s.outpointToOrphanWtxids
  marked : ∀ w, w ∈ s.reconsiderableWtxids ↔
    ∃ ann ∈ s.orphans, ann.reconsider = true ∧ ann.tx.wtxid = w
  oneMark : ∀ a ∈ s.orphans, ∀ b ∈ s.orphans, a.reconsider = true → b.reconsider = true →
    a.tx.wtxid = b.tx.wtxid → a = b

variable {T : Set OrphanTx} {s : TxOrphanage} {ann a b : Announcement} {tx : OrphanTx} {peer : ℤ}
  {y : OrphanTx × ℤ} {A : Finset (OrphanTx × ℤ)}

theorem mem_announced : y ∈ s.announced ↔ ∃ ann ∈ s.orphans, pair ann = y := by
  rw [announced, List.mem_toFinset, List.mem_map]

theorem pair_mem_announced (h : ann ∈ s.orphans) : pair ann ∈ s.announced :=
  mem_announced.2 ⟨ann, h, rfl⟩

theorem mem_items_announced : tx ∈ items s.announced ↔ ∃ ann ∈ s.orphans, ann.tx = tx := by
  rw [mem_items]
  constructor
  · rintro ⟨i, hi⟩
    obtain ⟨ann, hann, heq⟩ := mem_announced.1 hi
    exact ⟨ann, hann, (Prod.mk.inj heq).1⟩
  · rintro ⟨ann, hann, rfl⟩
    exact ⟨ann.announcer, pair_mem_announced hann⟩

/-- **At the start** there is nothing to count. -/
theorem inStep_empty (T : Set OrphanTx) (limits : OrphanLimits) : InStep T (empty limits) where
  nodup := nodup_nil
  known := forall_mem_nil _
  light := forall_mem_nil _
  info := fun _ => rfl
  unique := rfl
  usage := rfl
  scores := rfl
  linked := by simp [links, announced, items, empty]
  noEmptyKey := fun _ h => by cases h
  marked := by simp [empty]
  oneMark := forall_mem_nil _

section

variable (hT : Set.InjOn wtxid T)
include hT

theorem InStep.tx_eq (h : InStep T s) (ha : a ∈ s.orphans) (hb : b ∈ s.orphans)
    (heq : a.tx.wtxid = b.tx.wtxid) : a.tx = b.tx :=
  hT (h.known a ha) (h.known b hb) heq

/-- `IsUnique` asks whether a peer shares the transaction. -/
theorem InStep.isUnique_iff (h : InStep T s) (hann : ann ∈ s.orphans) :
    s.isUnique ann = true ↔ ¬Shared s.announced (pair ann) := by
  rw [isUnique, all_eq_true]
  simp only [decide_eq_true_eq]
  constructor
  · rintro hall ⟨y, hy, hne, heq⟩
    obtain ⟨other, hother, rfl⟩ := mem_announced.1 hy
    have htx : other.tx = ann.tx := heq
    exact hne (congrArg pair (hall other hother (congrArg wtxid htx)))
  · intro hno other hother hw
    by_contra hne
    refine hno ⟨pair other, pair_mem_announced hother, fun heq => hne ?_, h.tx_eq hT hother hann hw⟩
    exact inj_on_of_nodup_map h.nodup hother hann heq

end

/-! ## Erasing an announcement -/

theorem nodup_map_erase {α β : Type} [DecidableEq α] [DecidableEq β] {f : α → β} {l : List α}
    {a : α} (ha : a ∈ l) (h : (l.map f).Nodup) :
    ((l.erase a).map f).Nodup ∧ ((l.erase a).map f).toFinset = (l.map f).toFinset.erase (f a) := by
  have hperm : (l.map f).Perm (f a :: (l.erase a).map f) := (perm_cons_erase ha).map f
  obtain ⟨hnot, hnodup⟩ := nodup_cons.1 (hperm.nodup_iff.1 h)
  refine ⟨hnodup, ?_⟩
  rw [toFinset_eq_of_perm _ _ hperm, toFinset_cons,
    erase_insert fun hmem => hnot (mem_toFinset.1 hmem)]

/-- Erasing takes one pair out of the set. -/
theorem InStep.announced_erase (h : InStep T s) (hann : ann ∈ s.orphans) :
    (s.erase ann).announced = s.announced.erase (pair ann) :=
  (nodup_map_erase hann h.nodup).2

/-- A record after one announcement less. -/
theorem infoOf_erase (hy : y ∈ A) : infoOf (A.erase y) peer =
      if y.2 = peer then (infoOf A peer).bind fun info =>
          if (info.subtract y.1).countAnnouncements = 0 then none else some (info.subtract y.1)
      else infoOf A peer := by
  by_cases hpeer : y.2 = peer
  · have hmem : peer ∈ holders A := mem_holders.2 ⟨y.1, by rw [← hpeer]; exact hy⟩
    have hsubtract : (PeerDoSInfo.mk (held A memUsage peer) (held A (fun _ => 1) peer)
        (held A latencyScore peer)).subtract y.1 =
        ⟨held (A.erase y) memUsage peer, held (A.erase y) (fun _ => 1) peer,
          held (A.erase y) latencyScore peer⟩ := by
      simp only [PeerDoSInfo.subtract, held_erase hy, hpeer, if_true]
    rw [if_pos hpeer, infoOf, infoOf, if_pos hmem, Option.bind_some, hsubtract]
    by_cases hleft : peer ∈ holders (A.erase y)
    · rw [if_pos hleft, if_neg (held_one_pos hleft).ne']
    · rw [if_neg hleft, if_pos (held_eq_zero hleft)]
  · have hiff : peer ∈ holders (A.erase y) ↔ peer ∈ holders A := by
      refine ⟨fun hi => image_subset_image (erase_subset _ _) hi, fun hi => ?_⟩
      obtain ⟨tx, htx⟩ := mem_holders.1 hi
      refine mem_holders.2 ⟨tx, mem_erase.2 ⟨fun heq => hpeer ?_, htx⟩⟩
      rw [← heq]
    simp only [infoOf, hiff, held_erase hy, hpeer, if_false, sub_zero]

/-- The peer's part of `Erase` keeps its record right. -/
theorem InStep.erasePeerInfo_lookup (h : InStep T s) (hann : ann ∈ s.orphans) (peer : ℤ) :
    (s.erasePeerInfo ann).lookup peer = infoOf (s.announced.erase (pair ann)) peer := by
  rw [lookup_adjust (m := s.peerOrphanageInfo) (k := ann.announcer)
    (E := (·.countAnnouncements = 0)) (f := (subtract · ann.tx))
    (fun h => by simp only [erasePeerInfo, h]) (fun l h => by simp only [erasePeerInfo, h]),
    infoOf_erase (pair_mem_announced hann), ← h.info]
  rfl

/-- **Erase keeps the accounts.** -/
theorem InStep.erase (hT : Set.InjOn wtxid T) (h : InStep T s) (hann : ann ∈ s.orphans) :
    InStep T (s.erase ann) := by
  have hsub : ∀ b ∈ s.orphans.erase ann, b ∈ s.orphans := fun b hb => mem_of_mem_erase hb
  have hset := h.announced_erase hann
  have hmem := pair_mem_announced hann
  have hunique := h.isUnique_iff hT hann
  have hstored : ∀ w : OrphanTx → ℤ, stored (s.announced.erase (pair ann)) w =
      if s.isUnique ann then stored s.announced w - w ann.tx else stored s.announced w := by
    intro w
    split
    · next hu => exact stored_erase_of_not_shared hmem (hunique.1 hu)
    · next hu =>
      rw [stored, items_erase_of_shared (not_not.1 fun hno => hu (hunique.2 hno))]
      rfl
  refine ⟨(nodup_map_erase hann h.nodup).1, fun b hb => h.known b (hsub b hb),
    fun b hb => h.light b (hsub b hb), fun peer => ?_, ?_, ?_, ?_, fun o w => ?_, ?_, fun w => ?_,
    fun a ha b hb => h.oneMark a (hsub a ha) b (hsub b hb)⟩
  · rw [hset]
    exact h.erasePeerInfo_lookup hann peer
  · rw [hset, hstored, ← h.unique]
    rfl
  · rw [hset, hstored, ← h.usage]
    rfl
  · rw [hset, hstored, ← h.scores]
    rfl
  · rw [hset]
    simp only [TxOrphanage.erase]
    split
    · next hu =>
      rw [mem_links_foldl_unlink, h.linked, items_erase_of_not_shared (hunique.1 hu)]
      constructor
      · rintro ⟨⟨tx, htx, ho, rfl⟩, hne⟩
        refine ⟨tx, mem_erase.2 ⟨?_, htx⟩, ho, rfl⟩
        rintro rfl
        exact hne ho rfl
      · rintro ⟨tx, htx, ho, rfl⟩
        obtain ⟨hne, htx⟩ := mem_erase.1 htx
        refine ⟨⟨tx, htx, ho, rfl⟩, fun _ heq => hne ?_⟩
        obtain ⟨b, hb, rfl⟩ := mem_items_announced.1 htx
        exact h.tx_eq hT hb hann heq
    · next hu => rw [h.linked, items_erase_of_shared (not_not.1 fun hno => hu (hunique.2 hno))]
  · simp only [TxOrphanage.erase]
    split
    · exact foldlRecOn _ _ h.noEmptyKey fun _ hi _ _ => noEmptyKey_unlink hi
    · exact h.noEmptyKey
  · have hothers : ∀ b ∈ s.orphans, b ≠ ann → b ∈ s.orphans.erase ann :=
      fun b hb hne => (mem_erase_of_ne hne).2 hb
    simp only [TxOrphanage.erase]
    split
    · next hmark =>
      rw [mem_filter, h.marked, decide_eq_true_eq]
      constructor
      · rintro ⟨⟨b, hb, hbmark, rfl⟩, hne⟩
        refine ⟨b, hothers b hb ?_, hbmark, rfl⟩
        rintro rfl
        exact hne rfl
      · rintro ⟨b, hb, hbmark, rfl⟩
        refine ⟨⟨b, hsub b hb, hbmark, rfl⟩, fun heq => ?_⟩
        -- the announcement itself is gone, and it was the only one with a mark
        have hbann := h.oneMark b (hsub b hb) ann hann hbmark hmark heq
        have hnot : ann ∉ s.orphans.erase ann := (List.Nodup.of_map pair h.nodup).not_mem_erase
        exact hnot (hbann ▸ hb)
    · next hmark =>
      rw [h.marked]
      constructor
      · rintro ⟨b, hb, hbmark, rfl⟩
        refine ⟨b, hothers b hb ?_, hbmark, rfl⟩
        rintro rfl
        exact hmark hbmark
      · rintro ⟨b, hb, hbmark, rfl⟩
        exact ⟨b, hsub b hb, hbmark, rfl⟩

/-! ## Announcing a transaction -/

/-- A record after one announcement more. -/
theorem infoOf_insert (hy : y ∉ A) : infoOf (insert y A) peer =
      if y.2 = peer then some (((infoOf A peer).getD ⟨0, 0, 0⟩).add y.1) else infoOf A peer := by
  by_cases hpeer : y.2 = peer
  · have hmem : peer ∈ holders (insert y A) := by
      rw [holders_insert, hpeer]
      exact mem_insert_self _ _
    have hold : (infoOf A peer).getD ⟨0, 0, 0⟩ = ⟨held A memUsage peer,
        held A (fun _ => 1) peer, held A latencyScore peer⟩ := by
      by_cases hbefore : peer ∈ holders A
      · rw [infoOf, if_pos hbefore, Option.getD_some]
      · simp only [infoOf, hbefore, if_false, Option.getD_none, held_eq_zero hbefore]
    rw [hold, infoOf, if_pos hmem]
    simp only [add, held_insert hy, hpeer, if_true]
  · have hiff : peer ∈ holders (insert y A) ↔ peer ∈ holders A := by
      rw [holders_insert, mem_insert]
      exact or_iff_right fun heq => hpeer heq.symm
    simp only [infoOf, hiff, held_insert hy, hpeer, if_false, add_zero]

theorem haveTx_eq_true {w : Uint256} : s.haveTx w = true ↔ ∃ ann ∈ s.orphans, ann.tx.wtxid = w := by
  simp [haveTx]

/-- **A new announcement keeps the accounts.** -/
theorem InStep.announce (hT : Set.InjOn wtxid T) (h : InStep T s) (htx : tx ∈ T)
    (hlight : tx.weight ≤ maxStandardTxWeight) (hnew : (tx, peer) ∉ s.announced) :
    InStep T (s.announce tx peer) := by
  have hset : (s.announce tx peer).announced = insert (tx, peer) s.announced := toFinset_cons
  have hhave : s.haveTx tx.wtxid = true ↔ tx ∈ items s.announced := by
    rw [haveTx_eq_true, mem_items_announced]
    constructor
    · rintro ⟨ann, hann, heq⟩
      exact ⟨ann, hann, hT (h.known ann hann) htx heq⟩
    · rintro ⟨ann, hann, rfl⟩
      exact ⟨ann, hann, rfl⟩
  -- only the first announcement of a transaction adds to the totals
  have hstored : ∀ w : OrphanTx → ℤ, stored (insert (tx, peer) s.announced) w =
      if !s.haveTx tx.wtxid then stored s.announced w + w tx else stored s.announced w := by
    intro w
    by_cases hin : s.haveTx tx.wtxid = true
    · rw [stored, items_insert_of_mem (hhave.1 hin)]
      simp [hin, stored]
    · rw [stored, items_insert, sum_insert fun hmem => hin (hhave.2 hmem), add_comm]
      simp [hin, stored]
  refine ⟨?_, ?_, ?_, fun p => ?_, ?_, ?_, ?_, fun o w => ?_, ?_, fun w => ?_, ?_⟩
  · refine nodup_cons.2 ⟨fun hmem => hnew (mem_toFinset.2 hmem), h.nodup⟩
  · exact forall_mem_cons.2 ⟨htx, h.known⟩
  · exact forall_mem_cons.2 ⟨hlight, h.light⟩
  · rw [hset, infoOf_insert hnew]
    simp only [TxOrphanage.announce]
    by_cases hp : peer = p
    · subst hp
      rw [AList.lookup_insert, if_pos rfl, h.info]
    · rw [AList.lookup_insert_ne (Ne.symm hp), if_neg hp, h.info]
  · rw [hset, hstored, ← h.unique]
    rfl
  · rw [hset, hstored, ← h.usage]
    rfl
  · rw [hset, hstored, ← h.scores]
    rfl
  · rw [hset]
    simp only [TxOrphanage.announce]
    by_cases hin : s.haveTx tx.wtxid = true
    · simp only [hin, Bool.not_true, Bool.false_eq_true, if_false]
      rw [items_insert_of_mem (hhave.1 hin), h.linked]
    · simp only [hin, Bool.not_false, if_true]
      rw [mem_links_foldl_link, h.linked, items_insert]
      simp only [mem_insert, exists_eq_or_imp]
      rw [or_comm, eq_comm]
  · simp only [TxOrphanage.announce]
    split
    · exact foldlRecOn _ _ h.noEmptyKey fun _ hi _ _ => noEmptyKey_link hi
    · exact h.noEmptyKey
  · refine (h.marked w).trans ?_
    simp [TxOrphanage.announce]
  · intro a ha b hb hamark hbmark
    have hold : ∀ c ∈ (s.announce tx peer).orphans, c.reconsider = true → c ∈ s.orphans := by
      intro c hc hmark
      rcases mem_cons.1 hc with rfl | hc
      · cases hmark
      · exact hc
    exact h.oneMark a (hold a ha hamark) b (hold b hb hbmark) hamark hbmark

/-! ## Marks -/

/-- A mark does not change who announced what. -/
theorem map_pair_setReconsider (ann : Announcement) (r : Bool) :
    (s.setReconsider ann r).map pair = s.orphans.map pair := by
  rw [setReconsider, List.map_map]
  refine List.map_congr_left fun other _ => ?_
  simp only [Function.comp_apply]
  split
  · next heq => rw [heq]; rfl
  · rfl

theorem mem_setReconsider {r : Bool} (hann : ann ∈ s.orphans) : b ∈ s.setReconsider ann r ↔
      b = { ann with reconsider := r } ∨ (b ∈ s.orphans ∧ b ≠ ann) := by
  rw [setReconsider, List.mem_map]
  constructor
  · rintro ⟨other, hother, rfl⟩
    split
    · exact .inl rfl
    · next hne => exact .inr ⟨hother, hne⟩
  · rintro (rfl | ⟨hb, hne⟩)
    · exact ⟨ann, hann, if_pos rfl⟩
    · exact ⟨b, hb, if_neg hne⟩

variable (h : InStep T s)
include h

/-- **Marks may change** where one wtxid has one mark at most. -/
theorem InStep.remark {orphans : List Announcement} {wtxids : List Uint256}
    (hpairs : orphans.map pair = s.orphans.map pair)
    (hmarked : ∀ w, w ∈ wtxids ↔ ∃ ann ∈ orphans, ann.reconsider = true ∧ ann.tx.wtxid = w)
    (hone : ∀ a ∈ orphans, ∀ b ∈ orphans, a.reconsider = true → b.reconsider = true →
      a.tx.wtxid = b.tx.wtxid → a = b) :
    InStep T { s with orphans := orphans, reconsiderableWtxids := wtxids } := by
  have hset : announced { s with orphans := orphans, reconsiderableWtxids := wtxids } =
      s.announced := by
    exact congrArg toFinset hpairs
  have hold : ∀ ann ∈ orphans, ∃ b ∈ s.orphans, b.tx = ann.tx := by
    intro ann hann
    have hmem : pair ann ∈ s.orphans.map pair := hpairs ▸ mem_map_of_mem hann
    obtain ⟨b, hb, heq⟩ := mem_map.1 hmem
    exact ⟨b, hb, (Prod.mk.inj heq).1⟩
  refine ⟨?_, fun ann hann => ?_, fun ann hann => ?_, ?_, ?_, ?_, ?_, ?_, h.noEmptyKey, hmarked,
    hone⟩
  · rw [hpairs]
    exact h.nodup
  · obtain ⟨b, hb, heq⟩ := hold ann hann
    exact heq ▸ h.known b hb
  · obtain ⟨b, hb, heq⟩ := hold ann hann
    exact heq ▸ h.light b hb
  all_goals rw [hset]
  · exact h.info
  · exact h.unique
  · exact h.usage
  · exact h.scores
  · exact h.linked

variable (hann : ann ∈ s.orphans)
include hann

/-- A wtxid without a mark may get one. -/
theorem InStep.mark (hnot : ann.tx.wtxid ∉ s.reconsiderableWtxids) : InStep T { s with
      orphans := s.setReconsider ann true
      reconsiderableWtxids := ann.tx.wtxid :: s.reconsiderableWtxids } := by
  have hunmarked : ∀ c ∈ s.orphans, c.reconsider = true → c.tx.wtxid ≠ ann.tx.wtxid :=
    fun c hc hmark heq => hnot ((h.marked _).2 ⟨c, hc, hmark, heq⟩)
  refine h.remark (map_pair_setReconsider ann true) (fun w => ?_) fun a ha b hb hamark hbmark heq => ?_
  · rw [List.mem_cons, h.marked]
    constructor
    · rintro (rfl | ⟨c, hc, hmark, rfl⟩)
      · exact ⟨_, (mem_setReconsider hann).2 (.inl rfl), rfl, rfl⟩
      · refine ⟨c, (mem_setReconsider hann).2 (.inr ⟨hc, ?_⟩), hmark, rfl⟩
        rintro rfl
        exact hunmarked c hc hmark rfl
    · rintro ⟨c, hc, hmark, rfl⟩
      rcases (mem_setReconsider hann).1 hc with rfl | ⟨hc, -⟩
      · exact .inl rfl
      · exact .inr ⟨c, hc, hmark, rfl⟩
  · rcases (mem_setReconsider hann).1 ha with rfl | ⟨ha, -⟩ <;>
      rcases (mem_setReconsider hann).1 hb with rfl | ⟨hb, -⟩
    · rfl
    · exact absurd heq.symm (hunmarked b hb hbmark)
    · exact absurd heq (hunmarked a ha hamark)
    · exact h.oneMark a ha b hb hamark hbmark heq

/-- A mark may be taken away. -/
theorem InStep.unmark (hmark : ann.reconsider = true) : InStep T { s with
      orphans := s.setReconsider ann false
      reconsiderableWtxids := s.reconsiderableWtxids.filter (· ≠ ann.tx.wtxid) } := by
  have hold : ∀ c ∈ s.setReconsider ann false, c.reconsider = true → c ∈ s.orphans ∧ c ≠ ann := by
    intro c hc hcmark
    rcases (mem_setReconsider hann).1 hc with rfl | hc
    · cases hcmark
    · exact hc
  refine h.remark (map_pair_setReconsider ann false) (fun w => ?_)
    fun a ha b hb hamark hbmark heq => h.oneMark a (hold a ha hamark).1 b (hold b hb hbmark).1
      hamark hbmark heq
  rw [mem_filter, h.marked, decide_eq_true_eq]
  constructor
  · rintro ⟨⟨c, hc, hcmark, rfl⟩, hne⟩
    refine ⟨c, (mem_setReconsider hann).2 (.inr ⟨hc, ?_⟩), hcmark, rfl⟩
    rintro rfl
    exact hne rfl
  · rintro ⟨c, hc, hcmark, rfl⟩
    obtain ⟨hc', hne⟩ := hold c hc hcmark
    exact ⟨⟨c, hc', hcmark, rfl⟩, fun heq => hne (h.oneMark c hc' ann hann hcmark hmark heq)⟩

end TxOrphanage

end Quarlcoin
