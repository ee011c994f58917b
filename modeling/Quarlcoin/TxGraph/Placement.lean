import Mathlib.Tactic.LinearCombination
import Quarlcoin.TxGraph.Chunks
/-!
# What a cluster has written for its chunks

What `Updated` writes, computed without the graph: a `Placed` chunk knows its cluster, its
first position, and the size of the chunks of equal feerate up to it.
-/

namespace Quarlcoin.TxGraph

open Chunking List

variable {τ : Type*}

/-! ## Comparing feerates -/

theorem byRatio_eq {a b : FeeFrac} (ha : 0 < a.size) (hb : 0 < b.size) :
    byRatio a b = compare a.ratio b.ratio := by
  rw [byRatio]
  rcases lt_trichotomy a.ratio b.ratio with h | h | h
  · rw [compare_lt_iff_lt.2 h, compare_lt_iff_lt]
    exact (FeeFrac.ratio_lt_iff ha hb).1 h
  · rw [compare_eq_iff_eq.2 h, compare_eq_iff_eq]
    exact (FeeFrac.ratio_eq_iff ha hb).1 h
  · rw [compare_gt_iff_gt.2 h, compare_gt_iff_gt]
    exact (FeeFrac.ratio_lt_iff hb ha).1 h

theorem ratio_addFeerate {a b : FeeFrac} (ha : 0 < a.size) (hb : 0 < b.size)
    (h : a.ratio = b.ratio) : (addFeerate a b).ratio = b.ratio := by
  have hcross := (FeeFrac.ratio_eq_iff ha hb).1 h
  have hsize : 0 < (addFeerate a b).size := by
    simp only [addFeerate]
    omega
  rw [FeeFrac.ratio_eq_iff hsize hb]
  simp only [addFeerate]
  linear_combination hcross

/-! ## Placed chunks -/

/-- A chunk with what `Updated` computes for it. -/
structure Placed (τ : Type*) extends SetInfo τ where
  sequence : ℕ
  /-- The size of the chunks of equal feerate, up to this one. -/
  prefixSize : ℤ
  /-- The position of its first transaction in the linearization. -/
  start : ℕ
  /-- The chunk is the last one of its cluster. -/
  last : Bool

namespace Placed

variable (p : Placed τ)

/-- What `CompareMainTransactions` looks at first. -/
def level : ℚ ×ₗ ℤ := toLex (-p.feerate.ratio, p.prefixSize)

/-- What tells chunks of different clusters apart. -/
def rank [LinearOrder τ] : (ℚ ×ₗ ℤ) ×ₗ τ := toLex (p.level, p.maxElement)

/-- The entry of the transaction at a position of the linearization. -/
def entry [LinearOrder τ] (linIdx : ℕ) : Entry τ where
  locator := some p.sequence
  mainLinIndex := linIdx
  mainChunkFeerate := p.feerate
  mainEqualFeerateChunkPrefixSize := p.prefixSize
  mainMaxChunkFallback := p.maxElement

def data : ChunkData τ where
  graphIndex := p.final
  chunkCount :=
    if p.transactions.length = 1 ∧ p.last = true then singletonTail else p.transactions.length

def positions : List (τ × ℕ) := p.transactions.zipIdx p.start

end Placed

/-- The chunks of a cluster, from a position and a sum on. -/
def placeChunks (sequence : ℕ) : List (SetInfo τ) → ℕ → FeeFrac → List (Placed τ)
  | [], _, _ => []
  | chunk :: chunks, linIdx, sum => { chunk with
      sequence
      prefixSize := (equalFeerate sum chunk).size
      start := linIdx
      last := chunks.isEmpty } ::
    placeChunks sequence chunks (linIdx + chunk.transactions.length) (equalFeerate sum chunk)

def Cluster.placed (c : Cluster τ) : List (Placed τ) :=
  placeChunks c.sequence (chunkLinearizationInfo c.feerate c.linearization) 0 ⟨0, 0⟩

/-- What is compared of an entry: the rank of its chunk, and the position. -/
def Entry.key (e : Entry τ) : ((ℚ ×ₗ ℤ) ×ₗ τ) ×ₗ ℕ :=
  toLex (toLex (toLex (-e.mainChunkFeerate.ratio, e.mainEqualFeerateChunkPrefixSize),
    e.mainMaxChunkFallback), e.mainLinIndex)

@[simp]
theorem Placed.key_entry [LinearOrder τ] (p : Placed τ) (i : ℕ) :
    (p.entry i).key = toLex (p.rank, i) := rfl

/-! ## The chunks of a linearization -/

namespace SetInfo

theorem maxElement_mem [LinearOrder τ] (c : SetInfo τ) : c.maxElement ∈ c.transactions := by
  suffices h : ∀ (ts : List τ) (best : τ),
      ts.foldl (fun best t => if best < t then t else best) best ∈ best :: ts by
    have hmem := h c.transactions.tail (c.transactions.head c.nonempty)
    rwa [cons_head_tail] at hmem
  intro ts
  induction ts with
  | nil => simp
  | cons t ts ih =>
    intro best
    rw [foldl_cons]
    split
    · exact .tail _ (ih t)
    · rcases mem_cons.1 (ih best) with h | h
      · exact mem_cons.2 (.inl h)
      · exact .tail _ (.tail _ h)

theorem final_mem (c : SetInfo τ) : c.final ∈ c.transactions := getLast_mem _

end SetInfo

section Linearization

variable (feerate : τ → FeeFrac) (linearization : List τ)

theorem flatMap_chunkLinearizationInfo :
    (chunkLinearizationInfo feerate linearization).flatMap (·.transactions) = linearization := by
  rw [chunkLinearizationInfo, flatMap_chunk _ SetInfo.transactions fun _ _ => rfl, flatMap_map]
  simp [SetInfo.single]

variable {feerate linearization} (hpos : ∀ t ∈ linearization, 0 < (feerate t).size)
include hpos

theorem chunkLinearizationInfo_size_pos :
    ∀ c ∈ chunkLinearizationInfo feerate linearization, 0 < c.feerate.size := by
  refine forall_chunk ?_ ?_
  · intro a b _ ha hb
    exact add_pos ha hb
  · intro c hc
    obtain ⟨t, ht, rfl⟩ := mem_map.1 hc
    exact hpos t ht

omit hpos in
theorem chunkLinearizationInfo_feerate : ∀ c ∈ chunkLinearizationInfo feerate linearization,
      c.feerate = ⟨(c.transactions.map fun t => (feerate t).fee).sum,
        (c.transactions.map fun t => (feerate t).size).sum⟩ := by
  refine forall_chunk ?_ ?_
  · intro a b _ ha hb
    simp only [SetInfo.union, addFeerate, map_append, sum_append, ha, hb]
  · intro c hc
    obtain ⟨t, -, rfl⟩ := mem_map.1 hc
    simp [SetInfo.single]

/-- **The feerates of the chunks do not increase.** -/
theorem chunkLinearizationInfo_pairwise :
    (chunkLinearizationInfo feerate linearization).Pairwise fun a b =>
      b.feerate.ratio ≤ a.feerate.ratio := by
  have hsize := chunkLinearizationInfo_size_pos hpos
  have hchain : (chunkLinearizationInfo feerate linearization).IsChain fun a b =>
      b.feerate.ratio ≤ a.feerate.ratio := by
    refine (isChain_chunk _ _ _).imp_of_mem_imp fun a b ha hb hnot => ?_
    rw [beq_iff_eq, byRatio_eq (hsize b hb) (hsize a ha), compare_gt_iff_gt, not_lt] at hnot
    exact hnot
  exact isChain_iff_pairwise.1 hchain

end Linearization

/-! ## Sums of 64 bits -/

theorem addFeerate64_eq {a b : FeeFrac} (h : IsInt64 (a.fee + b.fee)) :
    addFeerate64 a b = addFeerate a b := by
  rw [addFeerate64, Int.bmod_eq_of_le (by omega) (by omega), addFeerate]

namespace Cluster

/-- **The fees fit**: those of different transactions of the cluster add up within 64 bits. -/
def FeesFit (c : Cluster τ) : Prop :=
  ∀ l : List τ, l.Nodup → l ⊆ c.linearization → IsInt64 (l.map fun t => (c.feerate t).fee).sum

/-- **The chunks are those of 64 bits**, and so are the sums of the chunks of equal feerate. -/
structure Exact64 (c : Cluster τ) : Prop where
  chunks : chunkLinearizationInfo64 c.feerate c.linearization =
    chunkLinearizationInfo c.feerate c.linearization
  sums : ∀ part, part <+: chunkLinearizationInfo c.feerate c.linearization →
    part.foldl equalFeerate64 ⟨0, 0⟩ = part.foldl equalFeerate ⟨0, 0⟩

variable {c : Cluster τ}

theorem FeesFit.of_infix (h : c.FeesFit) {l : List τ} (hl : l <:+: c.linearization) :
    IsInt64 (l.map fun t => (c.feerate t).fee).sum :=
  h l (c.nodup.sublist hl.sublist) hl.subset

/-- The sum of the chunks of equal feerate is over the last of the chunks. -/
theorem foldl_equalFeerate {part : List (SetInfo τ)} (hpart : ∀ chunk ∈ part,
    chunk.feerate.fee = (chunk.transactions.map fun t => (c.feerate t).fee).sum) :
    ∃ last, last <:+ part ∧ (part.foldl equalFeerate ⟨0, 0⟩).fee =
      ((last.flatMap (·.transactions)).map fun t => (c.feerate t).fee).sum := by
  induction part using reverseRecOn with
  | nil => exact ⟨[], suffix_rfl, rfl⟩
  | append_singleton part chunk ih =>
    have hchunk := hpart chunk (by simp)
    obtain ⟨last, hlast, hsum⟩ := ih fun d hd => hpart d (mem_append_left _ hd)
    rw [foldl_append, foldl_cons, foldl_nil, equalFeerate]
    split
    · exact ⟨[chunk], suffix_append _ _, by simpa using hchunk⟩
    · refine ⟨last ++ [chunk], (suffix_append_inj_of_length_eq rfl).2 ⟨hlast, rfl⟩, ?_⟩
      simp [addFeerate, hsum, hchunk]

/-- **Fees that fit are added exactly.** -/
theorem FeesFit.exact64 (h : c.FeesFit) : c.Exact64 where
  chunks := by
    refine @chunk_congr _ _ _ SetInfo.union SetInfo.transactions
      (fun s => s.feerate.fee = (s.transactions.map fun t => (c.feerate t).fee).sum) _
      c.linearization (fun _ _ => rfl) (fun a b _ ha hb => ?_) (fun a b ha hb hL => ?_) _
      (fun s hs => ?_) ?_
    · simp [SetInfo.union, addFeerate, ha, hb]
    · have hfit := h.of_infix hL
      rw [map_append, sum_append, ← ha, ← hb] at hfit
      rw [SetInfo.union64, addFeerate64_eq hfit]
      rfl
    · obtain ⟨t, -, rfl⟩ := mem_map.1 hs
      simp [SetInfo.single]
    · rw [flatMap_map]
      simp [SetInfo.single]
  sums part hpart := by
    have hflat := flatMap_chunkLinearizationInfo c.feerate c.linearization
    have hfee : ∀ chunk ∈ chunkLinearizationInfo c.feerate c.linearization, chunk.feerate.fee =
        (chunk.transactions.map fun t => (c.feerate t).fee).sum :=
      fun chunk hchunk => congrArg FeeFrac.fee (chunkLinearizationInfo_feerate chunk hchunk)
    induction part using reverseRecOn with
    | nil => rfl
    | append_singleton part chunk ih =>
      have hpre : part <+: chunkLinearizationInfo c.feerate c.linearization :=
        (prefix_append _ _).trans hpart
      obtain ⟨last, hlast, hsum⟩ := foldl_equalFeerate fun d hd => hfee d (hpre.subset hd)
      -- the chunks that are added up stand side by side in the linearization
      have hinfix : (last ++ [chunk]).flatMap (·.transactions) <:+: c.linearization := by
        obtain ⟨before, rfl⟩ := hlast
        obtain ⟨after, hafter⟩ := hpart
        refine ⟨before.flatMap (·.transactions), after.flatMap (·.transactions), ?_⟩
        rw [← hflat, ← hafter]
        simp
      have hfit := h.of_infix hinfix
      rw [flatMap_append, map_append, sum_append, ← hsum, flatMap_singleton,
        ← hfee chunk (hpart.subset (by simp))] at hfit
      rw [foldl_append, foldl_append, ih hpre, foldl_cons, foldl_cons, foldl_nil, foldl_nil,
        equalFeerate64, equalFeerate, addFeerate64_eq hfit]

end Cluster

/-! ## Levels -/

def sumLevel (sum : FeeFrac) : ℚ ×ₗ ℤ := toLex (-sum.ratio, sum.size)

theorem sumLevel_lt {sum : FeeFrac} {chunk : SetInfo τ} (hsum : 0 < sum.size)
    (hchunk : 0 < chunk.feerate.size) (hle : chunk.feerate.ratio ≤ sum.ratio) :
    sumLevel sum < sumLevel (equalFeerate sum chunk) ∧
      (equalFeerate sum chunk).ratio = chunk.feerate.ratio ∧ 0 < (equalFeerate sum chunk).size := by
  have hcmp := byRatio_eq hchunk hsum
  rw [equalFeerate]
  split
  · next hlt =>
    rw [hcmp, compare_lt_iff_lt] at hlt
    refine ⟨Prod.Lex.toLex_lt_toLex.2 (.inl ?_), rfl, hchunk⟩
    simpa using hlt
  next hnot =>
  rw [hcmp, compare_lt_iff_lt] at hnot
  have heq : sum.ratio = chunk.feerate.ratio := le_antisymm (not_lt.1 hnot) hle
  have hratio := ratio_addFeerate hsum hchunk heq
  have hsize : sum.size < (addFeerate sum chunk.feerate).size := by
    simp only [addFeerate]
    omega
  refine ⟨Prod.Lex.toLex_lt_toLex.2 (.inr ⟨?_, hsize⟩), hratio, hsum.trans hsize⟩
  simp only [hratio, heq]

theorem placeChunks_level (sequence linIdx : ℕ) {chunks : List (SetInfo τ)} {sum : FeeFrac}
    (hsum : 0 < sum.size) (hpos : ∀ c ∈ chunks, 0 < c.feerate.size)
    (hle : ∀ c ∈ chunks, c.feerate.ratio ≤ sum.ratio)
    (hchunks : chunks.Pairwise fun a b => b.feerate.ratio ≤ a.feerate.ratio) :
    (∀ p ∈ placeChunks sequence chunks linIdx sum, sumLevel sum < p.level) ∧
      (placeChunks sequence chunks linIdx sum).Pairwise fun p q => p.level < q.level := by
  induction chunks generalizing linIdx sum with
  | nil => exact ⟨by simp [placeChunks], .nil⟩
  | cons chunk chunks ih =>
    obtain ⟨hlt, hratio, hsum'⟩ := sumLevel_lt hsum (hpos chunk (.head _)) (hle chunk (.head _))
    rw [pairwise_cons] at hchunks
    obtain ⟨hrest, hpairwise⟩ := ih (linIdx + chunk.transactions.length) hsum'
      (fun c hc => hpos c (.tail _ hc)) (fun c hc => hratio ▸ hchunks.1 c hc) hchunks.2
    -- the head has the level of the sum up to it
    have hhead : sumLevel (equalFeerate sum chunk) =
        toLex (-chunk.feerate.ratio, (equalFeerate sum chunk).size) := by
      rw [sumLevel, hratio]
    constructor
    · intro p hp
      rcases mem_cons.1 hp with rfl | hp
      · rw [hhead] at hlt
        exact hlt
      · exact hlt.trans (hrest p hp)
    · refine pairwise_cons.2 ⟨fun q hq => ?_, hpairwise⟩
      have := hrest q hq
      rw [hhead] at this
      exact this

theorem equalFeerate_zero (chunk : SetInfo τ) : equalFeerate ⟨0, 0⟩ chunk = chunk.feerate := by
  simp [equalFeerate, addFeerate]

/-! ## Positions -/

section Positions

variable (sequence : ℕ) (chunks : List (SetInfo τ)) (linIdx : ℕ) (sum : FeeFrac)

theorem placeChunks_positions : (placeChunks sequence chunks linIdx sum).flatMap Placed.positions =
      (chunks.flatMap (·.transactions)).zipIdx linIdx := by
  induction chunks generalizing linIdx sum with
  | nil => rfl
  | cons chunk chunks ih =>
    rw [placeChunks, flatMap_cons, ih, flatMap_cons, zipIdx_append]
    rfl

theorem mem_placeChunks {p : Placed τ} (hp : p ∈ placeChunks sequence chunks linIdx sum) :
    p.sequence = sequence ∧ p.toSetInfo ∈ chunks := by
  induction chunks generalizing linIdx sum with
  | nil => simp [placeChunks] at hp
  | cons chunk chunks ih =>
    rw [placeChunks, mem_cons] at hp
    rcases hp with rfl | hp
    · exact ⟨rfl, .head _⟩
    · exact ⟨(ih _ _ hp).1, .tail _ (ih _ _ hp).2⟩

/-- A chunk is a slice of the linearization, and the last one is where that ends. -/
theorem placeChunks_slice {p : Placed τ} (hp : p ∈ placeChunks sequence chunks linIdx sum) :
    linIdx ≤ p.start ∧
      ((chunks.flatMap (·.transactions)).drop (p.start - linIdx)).take p.transactions.length =
        p.transactions ∧ (p.last = true ↔
        p.start + p.transactions.length = linIdx + (chunks.flatMap (·.transactions)).length) := by
  induction chunks generalizing linIdx sum with
  | nil => simp [placeChunks] at hp
  | cons chunk chunks ih =>
    rw [placeChunks, mem_cons] at hp
    rw [flatMap_cons, length_append]
    rcases hp with rfl | hp
    · refine ⟨le_rfl, by simp, ?_⟩
      cases chunks with
      | nil => simp
      | cons next chunks =>
        have := length_pos_iff.2 next.nonempty
        simp only [isEmpty_cons, Bool.false_eq_true, flatMap_cons, length_append, false_iff]
        omega
    · obtain ⟨hstart, hslice, hlast⟩ := ih _ _ hp
      refine ⟨by omega, ?_, ?_⟩
      · rw [drop_append, drop_eq_nil_of_le (by omega), nil_append]
        have : p.start - linIdx - chunk.transactions.length =
            p.start - (linIdx + chunk.transactions.length) := by omega
        rw [this, hslice]
      · rw [hlast]
        omega

theorem placeChunks_last :
    (placeChunks sequence chunks linIdx sum).Pairwise fun p _ => p.last = false := by
  induction chunks generalizing linIdx sum with
  | nil => exact .nil
  | cons chunk chunks ih =>
    refine pairwise_cons.2 ⟨fun q hq => ?_, ih _ _⟩
    cases chunks with
    | nil => cases hq
    | cons next chunks => rfl

end Positions

/-! ## The chunks of a cluster -/

namespace Cluster

variable (c : Cluster τ) {p : Placed τ}

theorem placed_positions : c.placed.flatMap Placed.positions = c.linearization.zipIdx := by
  rw [placed, placeChunks_positions, flatMap_chunkLinearizationInfo]

theorem placed_transactions : c.placed.flatMap (·.transactions) = c.linearization := by
  have h := congrArg (map Prod.fst) c.placed_positions
  rw [map_flatMap] at h
  simpa only [Placed.positions, zipIdx_map_fst] using h

variable {c}

section

variable (hp : p ∈ c.placed)
include hp

theorem sequence_of_mem_placed : p.sequence = c.sequence := (mem_placeChunks _ _ _ _ hp).1

theorem mem_of_mem_placed {t : τ} (ht : t ∈ p.transactions) : t ∈ c.linearization := by
  rw [← c.placed_transactions]
  exact mem_flatMap.2 ⟨p, hp, ht⟩

theorem size_pos_of_mem_placed : 0 < p.feerate.size :=
  chunkLinearizationInfo_size_pos c.size_pos _ (mem_placeChunks _ _ _ _ hp).2

theorem feerate_of_mem_placed : p.feerate = ⟨(p.transactions.map fun t => (c.feerate t).fee).sum,
      (p.transactions.map fun t => (c.feerate t).size).sum⟩ :=
  chunkLinearizationInfo_feerate _ (mem_placeChunks _ _ _ _ hp).2

theorem slice_of_mem_placed :
    (c.linearization.drop p.start).take p.transactions.length = p.transactions ∧
      (p.last = true ↔ p.start + p.transactions.length = c.linearization.length) := by
  obtain ⟨-, hslice, hlast⟩ := placeChunks_slice _ _ _ _ hp
  rw [flatMap_chunkLinearizationInfo] at hslice hlast
  exact ⟨hslice, by rw [hlast, zero_add]⟩

end

variable (c)

/-- **Later chunks of a cluster have a higher level.** -/
theorem placed_pairwise : c.placed.Pairwise fun p q => p.level < q.level := by
  have hpos := chunkLinearizationInfo_size_pos c.size_pos
  have hchunks := chunkLinearizationInfo_pairwise c.size_pos
  rw [placed]
  generalize chunkLinearizationInfo c.feerate c.linearization = chunks at hpos hchunks
  cases chunks with
  | nil => exact .nil
  | cons chunk chunks =>
    -- the first chunk starts the first sum
    rw [pairwise_cons] at hchunks
    obtain ⟨hrest, hpairwise⟩ := placeChunks_level c.sequence
      chunk.transactions.length (hpos chunk (.head _))
      (fun c hc => hpos c (.tail _ hc)) hchunks.1 hchunks.2
    rw [placeChunks, equalFeerate_zero, zero_add]
    exact pairwise_cons.2 ⟨hrest, hpairwise⟩

variable {c}

theorem last_of_level_lt {q : Placed τ} (hp : p ∈ c.placed) (hq : q ∈ c.placed)
    (h : p.level < q.level) : p.last = false := by
  have hboth := c.placed_pairwise.and (placeChunks_last c.sequence _ 0 ⟨0, 0⟩)
  have hsymm : Std.Symm fun p q : Placed τ =>
      (p.level < q.level ∧ p.last = false) ∨ (q.level < p.level ∧ q.last = false) :=
    ⟨fun _ _ h => h.symm⟩
  have hpair : c.placed.Pairwise fun p q =>
      (p.level < q.level ∧ p.last = false) ∨ (q.level < p.level ∧ q.last = false) :=
    hboth.imp Or.inl
  have hne : p ≠ q := fun heq => lt_irrefl _ (heq ▸ h)
  rcases hpair.forall hp hq hne with ⟨-, hlast⟩ | ⟨hlt, -⟩
  · exact hlast
  · exact absurd h hlt.asymm

end Cluster

theorem Placed.ratio_le {p q : Placed τ} (h : p.level < q.level) :
    q.feerate.ratio ≤ p.feerate.ratio := by
  rcases Prod.Lex.toLex_lt_toLex.1 h with hlt | ⟨heq, -⟩
  · exact (neg_lt_neg_iff.1 hlt).le
  · exact (neg_inj.1 heq).ge

end Quarlcoin.TxGraph
