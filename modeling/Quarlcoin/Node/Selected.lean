import Quarlcoin.Node.Assembler
/-!
# What a template contains

`addChunks` uses the builder as any caller may. So its transactions are in order with all
their ancestors, and the sums that it keeps are those of the transactions.
-/

namespace Quarlcoin

open TxGraph List MainGraph Cluster Session

variable {τ : Type*} [LinearOrder τ]

/-- The sizes of the graph are the adjusted weights of the mempool's entries. -/
def SizedBy (g : MainGraph τ) (entries : τ → MiningEntry) (bytesPerSigop : ℕ) : Prop :=
  ∀ c ∈ g.clusters, ∀ t ∈ c.linearization, (c.feerate t).size =
    getSigOpsAdjustedWeight (entries t).txWeight (entries t).sigOpCost bytesPerSigop

namespace BlockAssembler

variable {ctx : TemplateContext τ} {a : BlockAssembler τ} {ps done rest : List (Placed τ)}
  {p : Placed τ} {s : Session τ} {passed : List (Placed τ × Bool)}

/-- What has been assembled so far, by the calls of a session. -/
structure Assembled (ctx : TemplateContext τ) (s : Session τ) (a : BlockAssembler τ) : Prop where
  builder : s.builder = a.builder
  vtx : a.vtx = s.included ctx.graph
  weight : a.nBlockWeight =
    ctx.options.blockReservedWeight + (a.vtx.map fun t => (ctx.entries t).txWeight).sum
  sigops : a.nBlockSigOpsCost = ctx.options.coinbaseOutputMaxAdditionalSigops +
    (a.vtx.map fun t => (ctx.entries t).sigOpCost).sum
  final : ∀ t ∈ a.vtx, isFinalTx (ctx.entries t).tx ctx.nHeight ctx.lockTimeCutoff = true
  limits : a.vtx ≠ [] →
    a.nBlockWeight < ctx.options.blockMaxWeight ∧ a.nBlockSigOpsCost < maxBlockSigopsCost

omit [LinearOrder τ] in
theorem foldl_addToBlock (ctx : TemplateContext τ) (txs : List τ) (a : BlockAssembler τ) :
    let b := txs.foldl (addToBlock ctx) a
    b.builder = a.builder ∧ b.vtx = a.vtx ++ txs ∧
      b.nBlockWeight = a.nBlockWeight + (txs.map fun t => (ctx.entries t).txWeight).sum ∧
      b.nBlockSigOpsCost =
        a.nBlockSigOpsCost + (txs.map fun t => (ctx.entries t).sigOpCost).sum := by
  induction txs generalizing a with
  | nil => simp
  | cons t txs ih =>
    obtain ⟨hbuilder, hvtx, hweight, hsigops⟩ := ih (a.addToBlock ctx t)
    refine ⟨hbuilder, ?_, ?_, ?_⟩
    · rw [foldl_cons, hvtx]
      simp [addToBlock]
    · rw [foldl_cons, hweight]
      simp [addToBlock, add_assoc]
    · rw [foldl_cons, hsigops]
      simp [addToBlock, add_assoc]

omit [LinearOrder τ] in
theorem addChunk_spec (ctx : TemplateContext τ) (a : BlockAssembler τ) (txs : List τ)
    (feerate : FeeFrac) : (a.addChunk ctx txs feerate).builder = a.builder.includeChunk ctx.graph ∧
      (a.addChunk ctx txs feerate).vtx = a.vtx ++ txs ∧ (a.addChunk ctx txs feerate).nBlockWeight =
        a.nBlockWeight + (txs.map fun t => (ctx.entries t).txWeight).sum ∧
      (a.addChunk ctx txs feerate).nBlockSigOpsCost =
        a.nBlockSigOpsCost + (txs.map fun t => (ctx.entries t).sigOpCost).sum :=
  foldl_addToBlock ctx txs { a with builder := a.builder.includeChunk ctx.graph }

omit [LinearOrder τ] in
theorem chunkFits_spec {txs : List τ} {feerate : FeeFrac} (h : a.chunkFits ctx txs feerate = true) :
    (a.nBlockWeight + feerate.size < ctx.options.blockMaxWeight ∧
      a.nBlockSigOpsCost + (txs.map fun t => (ctx.entries t).sigOpCost).sum < maxBlockSigopsCost) ∧
      ∀ t ∈ txs, isFinalTx (ctx.entries t).tx ctx.nHeight ctx.lockTimeCutoff = true := by
  rw [chunkFits, Bool.and_eq_true, testChunkBlockLimits, testChunkTransactions, all_eq_true] at h
  obtain ⟨hlimits, hfinal⟩ := h
  refine ⟨?_, hfinal⟩
  split at hlimits
  · cases hlimits
  · next hweight =>
    split at hlimits
    · cases hlimits
    · next hsigops => exact ⟨not_le.1 hweight, not_le.1 hsigops⟩

variable {bytesPerSigop : ℕ}

theorem weight_le_size (h : Ready ctx.graph ps)
    (hsized : SizedBy ctx.graph ctx.entries bytesPerSigop) (hp : p ∈ ps) :
    ((p.transactions.map fun t => (ctx.entries t).txWeight).sum : ℤ) ≤ p.feerate.size := by
  obtain ⟨c, hc, hpc⟩ := h.cluster hp
  have hsize : p.feerate.size = (p.transactions.map fun t => (c.feerate t).size).sum :=
    congrArg FeeFrac.size (feerate_of_mem_placed hpc)
  rw [hsize]
  have hmem : ∀ t ∈ p.transactions, t ∈ c.linearization := fun t => mem_of_mem_placed hpc
  generalize p.transactions = txs at hmem
  induction txs with
  | nil => simp
  | cons t txs ih =>
    have hrest := ih fun u hu => hmem u (.tail _ hu)
    have hsize := hsized c hc t (hmem t (.head _))
    have hle : (ctx.entries t).txWeight ≤
        getSigOpsAdjustedWeight (ctx.entries t).txWeight (ctx.entries t).sigOpCost bytesPerSigop :=
      le_max_left _ _
    rw [map_cons, map_cons, sum_cons, sum_cons]
    omega

/-- **Including a chunk** that fits. -/
theorem Assembled.addChunk (h : Ready ctx.graph ps)
    (hsized : SizedBy ctx.graph ctx.entries bytesPerSigop) (ha : Assembled ctx s a)
    (hs : Progress ps s done (p :: rest) passed)
    (hfits : a.chunkFits ctx p.transactions p.feerate = true) :
    ∃ done' rest', rest'.length ≤ rest.length ∧
      Progress ps (s.call ctx.graph .includeChunk) done' rest' (passed ++ [(p, true)]) ∧
      Assembled ctx (s.call ctx.graph .includeChunk) (a.addChunk ctx p.transactions p.feerate) := by
  obtain ⟨done', rest', hlen, hs', -⟩ := hs.includeChunk_cons h
  obtain ⟨⟨hweight, hsigops⟩, hfinal⟩ := chunkFits_spec hfits
  have hp : p ∈ ps := hs.split ▸ mem_append_right _ (.head _)
  have hle := weight_le_size h hsized hp
  obtain ⟨hbuilder, hvtx, hw, hso⟩ := addChunk_spec ctx a p.transactions p.feerate
  refine ⟨done', rest', hlen, hs', ⟨?_, ?_, ?_, ?_, ?_, fun _ => ?_⟩⟩
  · rw [hbuilder, call, ha.builder]
  · rw [hvtx, ha.vtx, hs.included_eq h, hs'.included_eq h]
    simp
  · rw [hw, hvtx, ha.weight, map_append, sum_append, add_assoc]
  · rw [hso, hvtx, ha.sigops, map_append, sum_append, add_assoc]
  · rw [hvtx]
    intro t ht
    rcases mem_append.1 ht with ht | ht
    · exact ha.final t ht
    · exact hfinal t ht
  · rw [hso]
    exact ⟨by omega, hsigops⟩

omit [LinearOrder τ] in
theorem Assembled.getCurrentChunk (ha : Assembled ctx s a) :
    Assembled ctx (s.call ctx.graph .getCurrentChunk)
      { a with builder := (a.builder.getCurrentChunk ctx.graph).2 } where
  builder := by rw [call, ha.builder]
  vtx := ha.vtx
  weight := ha.weight
  sigops := ha.sigops
  final := ha.final
  limits := ha.limits

variable (h : Ready ctx.graph ps)
include h

theorem Assembled.skipChunk (ha : Assembled ctx s a)
    (hs : Progress ps s done (p :: rest) passed) (hk : KnownEnd s (p :: rest)) :
    ∃ done' rest', rest'.length ≤ rest.length ∧
      Progress ps (s.call ctx.graph .skipChunk) done' rest' (passed ++ [(p, false)]) ∧
      Assembled ctx (s.call ctx.graph .skipChunk)
        { a with builder := a.builder.skipChunk ctx.graph } := by
  obtain ⟨done', rest', hlen, hs', -⟩ := hs.skipChunk_cons h hk
  refine ⟨done', rest', hlen, hs', ⟨?_, ?_, ha.weight, ha.sigops, ha.final, ha.limits⟩⟩
  · rw [call, ha.builder]
  · rw [ha.vtx, hs.included_eq h, hs'.included_eq h]
    simp

variable (hsized : SizedBy ctx.graph ctx.entries bytesPerSigop)
include hsized

/-- **The loop ends**, with what was assembled by calls of the builder. -/
theorem Assembled.addChunksLoop (ha : Assembled ctx s a)
    (hs : Progress ps s done rest passed) {rounds : ℕ} (hrounds : rest.length < rounds)
    (failed : ℕ) :
    ∃ b s' done' rest' passed', BlockAssembler.addChunksLoop ctx rounds failed a = some b ∧
      Assembled ctx s' b ∧ Progress ps s' done' rest' passed' := by
  induction rounds generalizing s a done rest passed failed with
  | zero => omega
  | succ rounds ih =>
    obtain ⟨hchunk, hs₁, hk₁⟩ := hs.getCurrentChunk h
    have ha₁ := ha.getCurrentChunk
    rw [ha.builder] at hchunk
    rw [BlockAssembler.addChunksLoop]
    simp only [hchunk]
    cases rest with
    | nil => exact ⟨_, _, _, _, _, rfl, ha₁, hs₁⟩
    | cons p rest =>
      simp only [head?_cons, Option.map_some, if_neg p.nonempty]
      rw [length_cons] at hrounds
      split
      · exact ⟨_, _, _, _, _, rfl, ha₁, hs₁⟩
      split
      · next hfits =>
        obtain ⟨done', rest', hlen, hs₂, ha₂⟩ := ha₁.addChunk h hsized hs₁ hfits
        exact ih ha₂ hs₂ (by omega) 0
      · obtain ⟨done', rest', hlen, hs₂, ha₂⟩ := ha₁.skipChunk h hs₁ hk₁
        split
        · exact ⟨_, _, _, _, _, rfl, ha₂, hs₂⟩
        · exact ih ha₂ hs₂ (by omega) _

/-- **A template is assembled**, whatever the builder's flag is at first. -/
theorem addChunks_spec (indeterminate : Bool) :
    ∃ b s done rest passed, addChunks ctx indeterminate = some b ∧
      Assembled ctx s b ∧ Progress ps s done rest passed := by
  refine Assembled.addChunksLoop h hsized ?_
    (h.new indeterminate) ?_ 0
  · exact ⟨rfl, rfl, by simp [reset], by simp [reset], by simp [reset], by simp [reset]⟩
  · rw [h.indexes.index, length_map]
    omega

end BlockAssembler

/-! ## Templates of the main graph -/

variable (lin : Linearizer τ)

/-- `CompareMainOrder` is a strict total order that puts ancestors first, and the chunks of the
index are its consecutive pieces. -/
structure OrdersMain (g : MainGraph τ) : Prop where
  swap : ∀ t ∈ g.transactions, ∀ u ∈ g.transactions,
    (g.compareMainOrder lin t u).swap = g.compareMainOrder lin u t
  eq_iff : ∀ t ∈ g.transactions, ∀ u ∈ g.transactions, g.compareMainOrder lin t u = .eq ↔ t = u
  trans : ∀ t ∈ g.transactions, ∀ u ∈ g.transactions, ∀ v ∈ g.transactions,
    g.compareMainOrder lin t u = .lt → g.compareMainOrder lin u v = .lt →
      g.compareMainOrder lin t v = .lt
  ancestors_first : ∀ c ∈ g.clusters, ∀ t ∈ c.linearization, ∀ a ∈ c.ancestors t, a ≠ t →
    g.compareMainOrder lin a t = .lt
  chunks_perm : ((g.makeAllAcceptable lin).chunkIndex.flatMap
    (g.makeAllAcceptable lin).chunk).Perm g.transactions
  chunks_sorted : ((g.makeAllAcceptable lin).chunkIndex.flatMap
    (g.makeAllAcceptable lin).chunk).Pairwise fun t u => g.compareMainOrder lin t u = .lt
  chunk_feerate : ∀ d ∈ (g.makeAllAcceptable lin).chunkIndex, ∃ c ∈ g.clusters,
    ((g.makeAllAcceptable lin).entries d.graphIndex).mainChunkFeerate =
      ⟨(((g.makeAllAcceptable lin).chunk d).map fun t => (c.feerate t).fee).sum,
        (((g.makeAllAcceptable lin).chunk d).map fun t => (c.feerate t).size).sum⟩ ∧
      ∀ t ∈ (g.makeAllAcceptable lin).chunk d, t ∈ c.linearization
  feerates : (g.makeAllAcceptable lin).chunkIndex.Pairwise fun d e =>
    byRatio ((g.makeAllAcceptable lin).entries e.graphIndex).mainChunkFeerate
      ((g.makeAllAcceptable lin).entries d.graphIndex).mainChunkFeerate ≠ .gt

theorem ordersMain {g : MainGraph τ} (h : Valid g) : OrdersMain lin g := by
  obtain ⟨hall, hperm⟩ := h.makeAllAcceptable lin
  obtain ⟨ps, hready⟩ := hall.ready (h.acceptable_makeAll lin)
  have htxs := h.transactions_makeAll lin
  have hmem : ∀ {t}, t ∈ g.transactions → t ∈ (g.makeAllAcceptable lin).transactions :=
    fun ht => htxs.mem_iff.2 ht
  refine ⟨?_, ?_, ?_, ?_, hready.perm_chunks.trans htxs, ?_, ?_, hready.pairwise_feerates⟩
  · intro t ht u hu
    rw [h.compareMainOrder_eq lin ht hu, h.compareMainOrder_eq lin hu ht,
      compareMainTransactions_swap]
  · intro t ht u hu
    rw [h.compareMainOrder_eq lin ht hu, hready.compare_eq_iff (hmem ht) (hmem hu)]
  · intro t ht u hu v hv
    rw [h.compareMainOrder_eq lin ht hu, h.compareMainOrder_eq lin hu hv,
      h.compareMainOrder_eq lin ht hv, hready.compare_lt_iff (hmem ht) (hmem hu),
      hready.compare_lt_iff (hmem hu) (hmem hv), hready.compare_lt_iff (hmem ht) (hmem hv)]
    exact lt_trans
  · intro c hc t ht a ha hne
    have htg : t ∈ g.transactions := mem_flatMap.2 ⟨c, hc, ht⟩
    have hag : a ∈ g.transactions := mem_flatMap.2 ⟨c, hc, c.ancestors_mem t ht a ha⟩
    rw [h.compareMainOrder_eq lin hag htg]
    refine hready.ancestor_lt (hperm.mem_iff.2 (mem_map_of_mem hc))
      ((c.improve_perm lin).mem_iff.2 ht) ?_ hne
    rwa [c.improve_ancestors lin]
  · refine hready.pairwise_chunks.imp_of_mem fun {t u} ht hu hlt => ?_
    have hchunks := hready.perm_chunks.trans htxs
    rwa [h.compareMainOrder_eq lin (hchunks.mem_iff.1 ht) (hchunks.mem_iff.1 hu)]
  · intro d hd
    rw [hready.indexes.index] at hd
    obtain ⟨p, hp, rfl⟩ := mem_map.1 hd
    obtain ⟨c, hc, hpc⟩ := hready.cluster hp
    obtain ⟨e, he, rfl⟩ := mem_map.1 (hperm.mem_iff.1 hc)
    refine ⟨e, he, ?_, fun t ht => ?_⟩
    · rw [hready.feerate hp, hready.chunk hp, feerate_of_mem_placed hpc, e.improve_feerate lin]
    · rw [hready.chunk hp] at ht
      exact (e.improve_perm lin).mem_iff.1 (mem_of_mem_placed hpc ht)

/-- What a use of the builder comes to: the chunks come in order and at most once, and with a
transaction its ancestors are included. -/
structure SelectsClosed (g : MainGraph τ) (s : Session τ) : Prop where
  offered : (s.builder.getCurrentChunk g).1 = s.builder.rest.head?.map fun d =>
    (g.chunk d, (g.entries d.graphIndex).mainChunkFeerate)
  ordered : (s.taken.map Prod.fst ++ s.builder.rest.head?.toList).Sublist g.chunkIndex
  closed : ∀ c ∈ g.clusters, ∀ t ∈ s.included g, t ∈ c.linearization → ∀ a ∈ c.ancestors t,
    a ∈ s.included g

theorem selectsClosed {g : MainGraph τ} (h : Ready g ps)
    (hs : Progress ps s done rest passed) : SelectsClosed g s where
  offered := by
    rw [(hs.getCurrentChunk h).1, hs.builder_rest]
    cases hrest : rest with
    | nil => rfl
    | cons p rest' =>
      have hp : p ∈ ps := by
        rw [hs.split, hrest]
        exact mem_append_right _ (.head _)
      simp [h.chunk hp, h.feerate hp]
  ordered := hs.sublist_chunkIndex h
  closed c hc t ht htc a ha := hs.ancestor_mem h hc ht htc ha

/-- Ancestors come first, transactions are final, and weight and signature operations are within
the limits. -/
structure TemplateFits (ctx : TemplateContext τ) (b : BlockAssembler τ) : Prop where
  nodup : b.vtx.Nodup
  ancestors_first : ∀ earlier t later, b.vtx = earlier ++ t :: later →
    ∀ c ∈ ctx.graph.clusters, t ∈ c.linearization → ∀ a ∈ c.ancestors t, a ≠ t → a ∈ earlier
  final : ∀ t ∈ b.vtx, isFinalTx (ctx.entries t).tx ctx.nHeight ctx.lockTimeCutoff = true
  weight : (b.vtx.map fun t => (ctx.entries t).txWeight).sum <
      ctx.options.blockMaxWeight - ctx.options.blockReservedWeight ↔
    b.vtx ≠ [] ∨ ctx.options.blockReservedWeight < ctx.options.blockMaxWeight
  sigops : (b.vtx.map fun t => (ctx.entries t).sigOpCost).sum < maxBlockSigopsCost

theorem templateFits (h : Ready ctx.graph ps) {b : BlockAssembler τ}
    (hb : BlockAssembler.Assembled ctx s b)
    (hs : Progress ps s done rest passed) : TemplateFits ctx b := by
  have hsorted := hs.pairwise_included h
  rw [← hb.vtx] at hsorted
  have hnodup : b.vtx.Nodup := hsorted.imp fun {t u} hlt heq => by
    rw [heq, compareMainTransactions, if_pos rfl] at hlt
    cases hlt
  refine ⟨hnodup, ?_, hb.final, ?_, ?_⟩
  · intro earlier t later hvtx c hc htc a ha hne
    have hmem : t ∈ b.vtx := by simp [hvtx]
    have hamem : a ∈ b.vtx := by
      rw [hb.vtx] at hmem ⊢
      exact hs.ancestor_mem h hc hmem htc ha
    rw [hvtx] at hamem hsorted
    rcases mem_append.1 hamem with hin | hin
    · exact hin
    rcases mem_cons.1 hin with heq | hin
    · exact absurd heq hne
    · have hafter := (pairwise_cons.1 (pairwise_append.1 hsorted).2.1).1 a hin
      have hbefore := h.ancestor_lt hc htc ha hne
      rw [← ctx.graph.compareMainTransactions_swap, hafter] at hbefore
      cases hbefore
  · have hweight := hb.weight
    constructor
    · intro hlt
      exact .inr (by omega)
    · rintro (hne | hlt)
      · have := (hb.limits hne).1
        omega
      · by_cases hne : b.vtx = []
        · rw [hne]
          simp only [map_nil, sum_nil]
          omega
        · have := (hb.limits hne).1
          omega
  · by_cases hne : b.vtx = []
    · rw [hne]
      exact Nat.zero_lt_succ _
    · have := (hb.limits hne).2
      have := hb.sigops
      omega

/-- **A builder selects closed sets** unless it starts with a skip on a flag that happens
to be set. -/
theorem selectsClosed_run {g : MainGraph τ} (hg : Reachable g) {indeterminate : Bool}
    {calls : List Call} (hfirst : indeterminate = false ∨ calls.head? ≠ some Call.skipChunk) :
    SelectsClosed (g.makeAllAcceptable lin)
      (run (g.makeAllAcceptable lin) indeterminate calls) := by
  obtain ⟨ps, hready⟩ :=
    (hg.valid.makeAllAcceptable lin).1.ready (hg.valid.acceptable_makeAll lin)
  obtain ⟨done, rest, passed, hs⟩ := hready.run hfirst
  exact selectsClosed hready hs

/-! ## A pair of transactions -/

/-- A parent and a child with a lower feerate: two chunks of one cluster. -/
def pairCluster : Cluster ℕ where
  sequence := 0
  isSingleton := false
  feerate t := ⟨if t = 0 then 20 else 10, 10⟩
  ancestors t := if t = 0 then [0] else [0, 1]
  linearization := [0, 1]
  acceptable := true
  nodup := by decide
  count_le := by decide
  size_pos := by decide
  ancestors_mem := by decide
  acyclic := ⟨[0, 1], .refl _, by decide⟩
  topological _ := by decide
  singleton_le := by decide

def pairGraph : MainGraph ℕ := empty.replace [] [pairCluster]

theorem reachable_pairGraph : Reachable pairGraph := .replace .empty ⟨by decide, by decide⟩

/-- A transaction of ten bytes without signature operations. -/
def tinyEntry : MiningEntry where
  tx := ⟨[], [], 1, 0⟩
  fee := 10
  sigOpCost := 0

def noRoom : BlockCreateOptions where
  blockMinFeeRate := none
  blockReservedWeight := some 2000
  blockMaxWeight := some 2000
  coinbaseOutputMaxAdditionalSigops := 400

/-- Some topological order of every cluster. -/
noncomputable def someLinearizer : Linearizer ℕ where
  order c := c.acyclic.choose
  perm c := c.acyclic.choose_spec.1
  topological c := c.acyclic.choose_spec.2

/-- **What the first call may be** for a builder whose flag is not initialised. -/
theorem forall_selectsClosed_iff (indeterminate : Bool) (first : Call) :
    (∀ g : MainGraph ℕ, Reachable g → ∀ lin rest, SelectsClosed (g.makeAllAcceptable lin)
      (run (g.makeAllAcceptable lin) indeterminate (first :: rest))) ↔
      indeterminate = false ∨ first ≠ .skipChunk := by
  constructor
  · intro h
    by_contra hnot
    obtain ⟨rfl, rfl⟩ : indeterminate = true ∧ first = .skipChunk := by
      simpa [not_or] using hnot
    -- the child is included without its parent
    have hclosed := (h pairGraph reachable_pairGraph someLinearizer [.includeChunk]).closed
      pairCluster (.head _) 1 (by decide) (by decide) 0 (by decide)
    exact absurd hclosed (by decide)
  · intro hfirst g hg lin rest
    exact selectsClosed_run lin hg (hfirst.imp_right fun hne heq => hne (Option.some.inj heq))

/-- Two fees of at most twenty. -/
theorem feesFit_pairCluster : pairCluster.FeesFit := by
  intro l hnodup hsub
  have hlen : l.length ≤ 2 := (List.subperm_of_subset hnodup hsub).length_le
  have hlow : 0 ≤ (l.map fun t => (pairCluster.feerate t).fee).sum :=
    sum_nonneg (forall_mem_map.2 fun t _ => by simp only [pairCluster]; split <;> decide)
  have hhigh := sum_le_card_nsmul (l.map fun t => (pairCluster.feerate t).fee) 20
    (forall_mem_map.2 fun t _ => by simp only [pairCluster]; split <;> decide)
  rw [length_map, nsmul_eq_mul] at hhigh
  constructor <;> omega

theorem sizedBy_pairGraph : SizedBy pairGraph (fun _ => tinyEntry) 20 := by
  unfold SizedBy
  decide

end Quarlcoin
