import Quarlcoin.TxGraph.BlockBuilder
/-!
# The order of the transactions and what a builder selects

The order of the main graph is a strict total order that puts ancestors first. The chunks a
builder includes contain the ancestors of their transactions, as long as it does not start
with a skip that trusts the indeterminate flag.
-/

namespace Quarlcoin.TxGraph

open List MainGraph Placed Cluster BlockBuilder Session

variable {τ : Type*} [LinearOrder τ] {g : MainGraph τ} {ps : List (Placed τ)} {p q : Placed τ}

/-! ## The order -/

variable {t u a : τ} {c : Cluster τ} {s : Session τ} {done rest : List (Placed τ)}
  {passed : List (Placed τ × Bool)}

omit [LinearOrder τ] in
theorem Placed.exists_position (ht : t ∈ p.transactions) : ∃ x ∈ p.positions, x.1 = t := by
  refine mem_map.1 ?_
  rwa [positions, zipIdx_map_fst]

namespace Ready

section

variable (h : Ready g ps)
include h

variable (ht : t ∈ g.transactions)
include ht

theorem position : ∃ p ∈ ps, ∃ x ∈ p.positions, x.1 = t := by
  obtain ⟨c, hc, htc⟩ := mem_flatMap.1 ht
  rw [← c.placed_transactions] at htc
  obtain ⟨p, hp, htp⟩ := mem_flatMap.1 htc
  exact ⟨p, h.mem hc hp, exists_position htp⟩

variable (hu : u ∈ g.transactions)
include hu

theorem compare_lt_iff :
    g.compareMainTransactions t u = .lt ↔ (g.entries t).key < (g.entries u).key := by
  obtain ⟨p, hp, x, hx, rfl⟩ := h.position ht
  obtain ⟨q, hq, y, hy, rfl⟩ := h.position hu
  rw [h.indexes.written p hp x hx, h.indexes.written q hq y hy]
  exact h.indexes.written.compare_lt_iff h.orderly hp hq hx hy

theorem key_inj (heq : (g.entries t).key = (g.entries u).key) : t = u := by
  obtain ⟨p, hp, x, hx, rfl⟩ := h.position ht
  obtain ⟨q, hq, y, hy, rfl⟩ := h.position hu
  rw [h.indexes.written p hp x hx, h.indexes.written q hq y hy, key_entry, key_entry,
    toLex_inj, Prod.mk.injEq] at heq
  obtain rfl := h.orderly.rank_inj hp hq heq.1
  obtain ⟨-, -, hxt⟩ := mem_zipIdx hx
  obtain ⟨-, -, hyt⟩ := mem_zipIdx hy
  rw [hxt, hyt]
  congr 1
  rw [heq.2]

theorem compare_eq_iff : g.compareMainTransactions t u = .eq ↔ t = u := by
  constructor
  · intro heq
    refine h.key_inj ht hu (le_antisymm (not_lt.1 fun hlt => ?_) (not_lt.1 fun hlt => ?_))
    · have := (h.compare_lt_iff hu ht).2 hlt
      rw [← g.compareMainTransactions_swap, heq] at this
      cases this
    · have := (h.compare_lt_iff ht hu).2 hlt
      rw [heq] at this
      cases this
  · rintro rfl
    exact if_pos rfl

omit hu

omit ht

theorem pairwise_chunk (hp : p ∈ ps) :
    p.transactions.Pairwise fun t u => g.compareMainTransactions t u = .lt := by
  have hpositions : p.positions.Pairwise fun x y => x.2 < y.2 := by
    rw [positions]
    refine pairwise_iff_getElem.2 fun i j hi hj hij => ?_
    simp only [getElem_zipIdx]
    omega
  have hmap : p.positions.map Prod.fst = p.transactions := zipIdx_map_fst ..
  rw [← hmap, pairwise_map]
  refine hpositions.imp_of_mem fun {x y} hx hy hlt => ?_
  rw [h.indexes.written.compare_lt_iff h.orderly hp hp hx hy, Prod.Lex.toLex_lt_toLex]
  exact .inr ⟨rfl, hlt⟩

theorem compare_of_rank_lt (hp : p ∈ ps) (hq : q ∈ ps) (hrank : p.rank < q.rank)
    (ht : t ∈ p.transactions) (hu : u ∈ q.transactions) : g.compareMainTransactions t u = .lt := by
  obtain ⟨x, hx, rfl⟩ := exists_position ht
  obtain ⟨y, hy, rfl⟩ := exists_position hu
  rw [h.indexes.written.compare_lt_iff h.orderly hp hq hx hy, Prod.Lex.toLex_lt_toLex]
  exact .inl hrank

end

section

variable (h : Ready g ps)
include h

theorem pairwise_linearization (hc : c ∈ g.clusters) :
    c.linearization.Pairwise fun t u => g.compareMainTransactions t u = .lt := by
  rw [← c.placed_transactions, pairwise_flatMap]
  refine ⟨fun p hp => h.pairwise_chunk (h.mem hc hp), ?_⟩
  refine c.placed_pairwise.imp_of_mem fun {p q} hp hq hlevel t ht u hu => ?_
  exact h.compare_of_rank_lt (h.mem hc hp) (h.mem hc hq)
    (Prod.Lex.toLex_lt_toLex.2 (.inl hlevel)) ht hu

/-- **Ancestors come first.** -/
theorem ancestor_lt (hc : c ∈ g.clusters)
    (ht : t ∈ c.linearization) (ha : a ∈ c.ancestors t) (hne : a ≠ t) :
    g.compareMainTransactions a t = .lt := by
  have hboth := (h.pairwise_linearization hc).and (c.topological (h.acceptable c hc))
  have hsymm : Std.Symm fun t u : τ =>
      (g.compareMainTransactions t u = .lt ∧ u ∉ c.ancestors t) ∨
        (g.compareMainTransactions u t = .lt ∧ t ∉ c.ancestors u) :=
    ⟨fun _ _ h => h.symm⟩
  have hpair : c.linearization.Pairwise fun t u =>
      (g.compareMainTransactions t u = .lt ∧ u ∉ c.ancestors t) ∨
        (g.compareMainTransactions u t = .lt ∧ t ∉ c.ancestors u) :=
    hboth.imp Or.inl
  rcases hpair.forall (c.ancestors_mem t ht a ha) ht hne with ⟨hlt, -⟩ | ⟨-, hnot⟩
  · exact hlt
  · exact absurd ha hnot

/-- **Chunks are contiguous**: one after another they are the transactions in order. -/
theorem pairwise_chunks :
    (g.chunkIndex.flatMap g.chunk).Pairwise fun t u => g.compareMainTransactions t u = .lt := by
  rw [h.indexes.index, flatMap_map, pairwise_flatMap]
  constructor
  · intro p hp
    rw [h.chunk hp]
    exact h.pairwise_chunk hp
  · refine h.indexes.sorted.imp_of_mem fun {p q} hp hq hrank t ht u hu => ?_
    rw [h.chunk hp] at ht
    rw [h.chunk hq] at hu
    exact h.compare_of_rank_lt hp hq hrank ht hu

theorem perm_chunks : (g.chunkIndex.flatMap g.chunk).Perm g.transactions := by
  have hchunks : g.chunkIndex.flatMap g.chunk = ps.flatMap (·.transactions) := by
    rw [h.indexes.index, flatMap_map, flatMap_def, flatMap_def,
      map_congr_left fun p hp => h.chunk hp]
  rw [hchunks, transactions]
  refine (h.perm.flatMap_right _).trans (.of_eq ?_)
  rw [flatMap_assoc, flatMap_def, flatMap_def, map_congr_left fun c _ => c.placed_transactions]

/-- **Feerates do not increase.** -/
theorem pairwise_feerates :
    g.chunkIndex.Pairwise fun d e => byRatio (g.entries e.graphIndex).mainChunkFeerate
      (g.entries d.graphIndex).mainChunkFeerate ≠ .gt := by
  rw [h.indexes.index, pairwise_map]
  refine h.indexes.sorted.imp_of_mem fun {p q} hp hq hrank => ?_
  rw [h.feerate hp, h.feerate hq, byRatio_eq (h.orderly.size_pos q hq) (h.orderly.size_pos p hp),
    ne_eq, compare_gt_iff_gt, not_lt]
  rcases Prod.Lex.toLex_lt_toLex.1 hrank with hlt | ⟨heq, -⟩
  · exact ratio_le hlt
  · exact (neg_inj.1 (Prod.mk.inj (toLex_inj.1 heq)).1).ge

end

end Ready

/-! ## Selecting -/

/-- How far a builder has come: the chunks are `done` or `rest`, and `passed` are those of `done`
that were decided about. -/
structure Progress (ps : List (Placed τ)) (s : Session τ) (done rest : List (Placed τ))
    (passed : List (Placed τ × Bool)) : Prop where
  split : ps = done ++ rest
  builder_rest : s.builder.rest = rest.map data
  current : s.builder.curCluster = rest.head?.map (·.sequence)
  not_excluded : ∀ p ∈ rest.head?, p.sequence ∉ s.builder.excludedClusters
  taken : s.taken = passed.map fun x => (x.1.data, x.2)
  passed_sublist : (passed.map Prod.fst).Sublist done
  /-- A chunk that was not included is the last one of its cluster, or keeps the later
  ones out. -/
  settled : ∀ p ∈ done, (p, true) ∈ passed ∨ p.sequence ∈ s.builder.excludedClusters ∨ p.last = true
  /-- With a chunk, the earlier ones of its cluster are included. -/
  closed : ∀ q, (q, true) ∈ passed → ∀ p ∈ ps, p.sequence = q.sequence → p.rank < q.rank →
    (p, true) ∈ passed

/-- The flag tells the truth about the current chunk. -/
def KnownEnd (s : Session τ) (rest : List (Placed τ)) : Prop :=
  s.builder.knownEndOfCluster = true → ∀ p ∈ rest.head?, p.last = true

theorem nextLoop_spec (h : Ready g ps) (excluded : List ℕ) {ahead : List (Placed τ)}
    (hahead : ∀ p ∈ ahead, p ∈ ps) (known : Bool) :
    ∃ skipped rest : List (Placed τ), ahead = skipped ++ rest ∧
      (∀ p ∈ skipped, p.sequence ∈ excluded) ∧ (∀ p ∈ rest.head?, p.sequence ∉ excluded) ∧
      ∃ known', nextLoop g excluded (ahead.map data) known =
        ⟨rest.map data, excluded, rest.head?.map (·.sequence), known'⟩ ∧
        (known' = true → rest = []) := by
  induction ahead generalizing known with
  | nil => exact ⟨[], [], rfl, by simp, by simp, known, rfl, fun _ => rfl⟩
  | cons p ahead ih =>
    have hloc := h.locator (hahead p (.head _))
    rw [map_cons, nextLoop]
    simp only [hloc, Option.any_some, decide_eq_true_eq]
    split
    · next hmem =>
      obtain ⟨skipped, rest, heq, hskipped, hrest, hnext⟩ :=
        ih (fun q hq => hahead q (.tail _ hq)) false
      refine ⟨p :: skipped, rest, by rw [heq]; rfl, ?_, hrest, hnext⟩
      intro q hq
      rcases mem_cons.1 hq with rfl | hq
      · exact hmem
      · exact hskipped q hq
    · next hnot =>
      refine ⟨[], p :: ahead, rfl, by simp, ?_, false, rfl, by simp⟩
      rintro q ⟨⟩
      exact hnot

/-- What `Include` and `Skip` have in common: the current chunk is decided about. -/
theorem Progress.advance (h : Ready g ps) (hs : Progress ps s done (p :: rest) passed)
    (included : Bool) {excluded : List ℕ} (known : Bool)
    (hexcluded : ∀ n ∈ s.builder.excludedClusters, n ∈ excluded)
    (hsettled : included = true ∨ p.sequence ∈ excluded ∨ p.last = true) :
    ∃ done' rest', rest'.length ≤ rest.length ∧ Progress ps
        ⟨nextLoop g excluded (rest.map data) known, s.taking included⟩
        done' rest' (passed ++ [(p, included)]) ∧
      KnownEnd ⟨nextLoop g excluded (rest.map data) known, s.taking included⟩ rest' := by
  have hmem : ∀ q ∈ p :: rest, q ∈ ps := fun q hq => by
    rw [hs.split]
    exact mem_append_right _ hq
  obtain ⟨skipped, rest', heq, hskipped, hrest', known', hnext, hknown⟩ :=
    nextLoop_spec h excluded (fun q hq => hmem q (.tail _ hq)) known
  rw [hnext]
  refine ⟨done ++ p :: skipped, rest', by simp [heq], ⟨?_, rfl, rfl, hrest', ?_, ?_, ?_, ?_⟩, ?_⟩
  · rw [hs.split, heq]
    simp
  · rw [taking, hs.taken, hs.builder_rest]
    simp
  · rw [map_append]
    refine hs.passed_sublist.append ?_
    simp
  · intro q hq
    rcases mem_append.1 hq with hq | hq
    · rcases hs.settled q hq with hin | hex | hlast
      · exact .inl (mem_append_left _ hin)
      · exact .inr (.inl (hexcluded _ hex))
      · exact .inr (.inr hlast)
    rcases mem_cons.1 hq with rfl | hq
    · rcases hsettled with rfl | hex | hlast
      · exact .inl (by simp)
      · exact .inr (.inl hex)
      · exact .inr (.inr hlast)
    · exact .inr (.inl (hskipped q hq))
  · intro q hq r hr hseq hrank
    rcases mem_append.1 hq with hq | hq
    · exact mem_append_left _ (hs.closed q hq r hr hseq hrank)
    · -- the current chunk: its cluster is not excluded, and an earlier chunk is not the last
      obtain ⟨rfl, rfl⟩ := Prod.mk.inj (mem_singleton.1 hq)
      have hrdone : r ∈ done := by
        have hsorted := hs.split ▸ h.indexes.sorted
        rw [hs.split] at hr
        rcases mem_append.1 hr with hr | hr
        · exact hr
        · rcases mem_cons.1 hr with rfl | hr
          · exact absurd hrank (lt_irrefl _)
          · have := (pairwise_cons.1 (pairwise_append.1 hsorted).2.1).1 r hr
            exact absurd hrank this.asymm
      rcases hs.settled r hrdone with hin | hex | hlast
      · exact mem_append_left _ hin
      · exact absurd (hseq ▸ hex) (hs.not_excluded q rfl)
      · have hqps := hmem q (.head _)
        obtain ⟨c, hc, hrc⟩ := h.cluster hr
        obtain ⟨d, hd, hqd⟩ := h.cluster hqps
        have hcd := h.valid.compatible.eq_of_sequence hc hd (by
          rw [← sequence_of_mem_placed hrc, hseq, sequence_of_mem_placed hqd])
        subst hcd
        rw [last_of_level_lt hrc hqd (h.level_lt hr hqps hseq hrank)] at hlast
        cases hlast
  · intro hk
    rw [hknown hk]
    simp

theorem Progress.done_of_nil (hs : Progress ps s done [] passed) (included : Bool) :
    s.taking included = s.taken ∧ s.builder.next g = s.builder := by
  have hrest := hs.builder_rest
  rw [taking, BlockBuilder.next, hrest]
  simp

theorem Progress.next_eq (hs : Progress ps s done (p :: rest) passed) :
    s.builder.next g = nextLoop g s.builder.excludedClusters
      (rest.map data) s.builder.knownEndOfCluster := by
  rw [BlockBuilder.next, hs.builder_rest]
  rfl

variable (h : Ready g ps)
include h

theorem Progress.getCurrentChunk (hs : Progress ps s done rest passed) :
    (s.builder.getCurrentChunk g).1 = rest.head?.map (fun p => (p.transactions, p.feerate)) ∧
      Progress ps (s.call g .getCurrentChunk) done rest passed ∧
      KnownEnd (s.call g .getCurrentChunk) rest := by
  have hrest := hs.builder_rest
  have hcurrent := hs.current
  rw [call, BlockBuilder.getCurrentChunk]
  cases rest with
  | nil =>
    rw [hrest]
    exact ⟨rfl, hs, by simp [KnownEnd]⟩
  | cons p rest =>
    have hp : p ∈ ps := hs.split ▸ mem_append_right _ (.head _)
    have hrefs := h.chunkRefs hp
    rw [map_cons] at hrest
    simp only [hrest, hcurrent, hrefs, h.feerate hp, head?_cons, Option.map_some, true_and]
    refine ⟨⟨hs.split, ?_, rfl, hs.not_excluded, hs.taken, hs.passed_sublist, hs.settled,
      hs.closed⟩, ?_⟩
    · simp
    · rintro hlast _ ⟨⟩
      exact hlast

theorem Progress.includeChunk_cons (hs : Progress ps s done (p :: rest) passed) :
    ∃ done' rest', rest'.length ≤ rest.length ∧
      Progress ps (s.call g .includeChunk) done' rest' (passed ++ [(p, true)]) ∧
      KnownEnd (s.call g .includeChunk) rest' := by
  rw [call, includeChunk, hs.next_eq]
  exact hs.advance h true s.builder.knownEndOfCluster (fun n hn => hn) (.inl rfl)

theorem Progress.skipChunk_cons (hs : Progress ps s done (p :: rest) passed)
    (hk : KnownEnd s (p :: rest)) : ∃ done' rest', rest'.length ≤ rest.length ∧
      Progress ps (s.call g .skipChunk) done' rest' (passed ++ [(p, false)]) ∧
      KnownEnd (s.call g .skipChunk) rest' := by
  have hcurrent := hs.current
  rw [head?_cons, Option.map_some] at hcurrent
  rw [call, skipChunk, hcurrent]
  simp only
  split
  · next hknown =>
    rw [hs.next_eq]
    exact hs.advance h false s.builder.knownEndOfCluster (fun n hn => hn)
      (.inr (.inr (hk hknown p rfl)))
  have hnext : next g
      ⟨s.builder.rest, p.sequence :: s.builder.excludedClusters, some p.sequence,
        s.builder.knownEndOfCluster⟩ =
      nextLoop g (p.sequence :: s.builder.excludedClusters)
        (rest.map data) s.builder.knownEndOfCluster := by
    rw [hs.builder_rest]
    rfl
  rw [hnext]
  exact hs.advance h false s.builder.knownEndOfCluster (fun n hn => .tail _ hn)
    (.inr (.inl (.head _)))

omit h

theorem Progress.call_nil (hs : Progress ps s done [] passed) (call : Call) :
    s.call g call = s := by
  obtain ⟨hinclude, hnext⟩ := hs.done_of_nil true
  obtain ⟨hskip, -⟩ := hs.done_of_nil (g := g) false
  have hcurrent : s.builder.curCluster = none := hs.current
  have hrest : s.builder.rest = [] := hs.builder_rest
  cases call with
  | getCurrentChunk => rw [call, BlockBuilder.getCurrentChunk, hrest]
  | includeChunk => rw [call, includeChunk, hinclude, hnext]
  | skipChunk => simp only [call, skipChunk, hcurrent, hskip, hnext]

variable (h : Ready g ps)
include h

variable (hs : Progress ps s done rest passed)
include hs

/-- **A call** goes on with the chunks; only `Skip` relies on the flag. -/
theorem Progress.call (call : Call) (hk : call = .skipChunk → KnownEnd s rest) :
    ∃ done' rest' passed', Progress ps (s.call g call) done' rest' passed' ∧
      KnownEnd (s.call g call) rest' := by
  cases rest with
  | nil =>
    rw [hs.call_nil]
    exact ⟨done, [], passed, hs, by simp [KnownEnd]⟩
  | cons p rest =>
    cases call with
    | getCurrentChunk => exact ⟨done, p :: rest, passed, (hs.getCurrentChunk h).2⟩
    | includeChunk =>
      obtain ⟨done', rest', -, hs'⟩ := hs.includeChunk_cons h
      exact ⟨done', rest', _, hs'⟩
    | skipChunk =>
      obtain ⟨done', rest', -, hs'⟩ := hs.skipChunk_cons h (hk rfl)
      exact ⟨done', rest', _, hs'⟩

theorem Progress.calls (hk : KnownEnd s rest) (calls : List Call) :
    ∃ done' rest' passed', Progress ps (calls.foldl (Session.call g) s) done' rest' passed' := by
  induction calls generalizing s done rest passed with
  | nil => exact ⟨done, rest, passed, hs⟩
  | cons call calls ih =>
    obtain ⟨done', rest', passed', hs', hk'⟩ := hs.call h call fun _ => hk
    exact ih hs' hk'

omit hs

theorem Ready.new (indeterminate : Bool) : Progress ps ⟨.new g indeterminate, []⟩ [] ps [] where
  split := rfl
  builder_rest := h.indexes.index
  current := by
    rw [BlockBuilder.new, h.indexes.index]
    cases hps : ps with
    | nil => rfl
    | cons p ps' =>
      exact h.locator (hps ▸ .head _)
  not_excluded := by simp [BlockBuilder.new]
  taken := rfl
  passed_sublist := .slnil
  settled := by simp
  closed := by simp

/-- **Every use of a builder makes progress** that does not start with a skip on a flag
that happens to be set. -/
theorem Ready.run {indeterminate : Bool} {calls : List Call}
    (hfirst : indeterminate = false ∨ calls.head? ≠ some .skipChunk) :
    ∃ done rest passed, Progress ps (run g indeterminate calls) done rest passed := by
  have hnew := h.new indeterminate
  cases calls with
  | nil => exact ⟨[], ps, [], hnew⟩
  | cons call calls =>
    obtain ⟨done, rest, passed, hs, hk⟩ := hnew.call h call fun hskip hset => by
      rcases hfirst with hclear | hne
      · rw [hclear] at hset
        cases hset
      · exact absurd (by rw [hskip]; rfl) hne
    exact hs.calls h hk calls

omit h

/-! ## What is selected -/

namespace Progress

theorem passed_mem (hs : Progress ps s done rest passed) {x : Placed τ × Bool} (hx : x ∈ passed) :
    x.1 ∈ ps := by
  rw [hs.split]
  exact mem_append_left _ (hs.passed_sublist.subset (mem_map_of_mem hx))

variable (h : Ready g ps)
include h

variable (hs : Progress ps s done rest passed)
include hs

theorem included_eq :
    s.included g = ((passed.filter (·.2)).map Prod.fst).flatMap (·.transactions) := by
  rw [included, hs.taken, filter_map, flatMap_map, flatMap_map]
  refine congrArg _ (map_congr_left fun x hx => ?_)
  exact h.chunk (hs.passed_mem (mem_of_mem_filter hx))

/-- **Chunks come in order, and at most once**: those that were decided about, and the
current one. -/
theorem sublist_chunkIndex :
    (s.taken.map Prod.fst ++ s.builder.rest.head?.toList).Sublist g.chunkIndex := by
  rw [h.indexes.index, hs.split, map_append, hs.taken, map_map, hs.builder_rest]
  refine List.Sublist.append ?_ ?_
  · have := hs.passed_sublist.map data
    rwa [map_map] at this
  · cases rest with
    | nil => exact .slnil
    | cons p rest => simp

/-- **The included transactions are in order.** -/
theorem pairwise_included :
    (s.included g).Pairwise fun t u => g.compareMainTransactions t u = .lt := by
  have hsub : ((passed.filter (·.2)).map Prod.fst).Sublist ps := by
    rw [hs.split]
    exact ((filter_sublist.map _).trans hs.passed_sublist).trans (sublist_append_left _ _)
  rw [hs.included_eq h, pairwise_flatMap]
  refine ⟨fun p hp => h.pairwise_chunk (hsub.subset hp), ?_⟩
  refine (h.indexes.sorted.sublist hsub).imp_of_mem fun {p q} hp hq hrank t ht u hu => ?_
  exact h.compare_of_rank_lt (hsub.subset hp) (hsub.subset hq) hrank ht hu

/-- **The included transactions come with their ancestors.** -/
theorem ancestor_mem (hc : c ∈ g.clusters) (ht : t ∈ s.included g) (htc : t ∈ c.linearization)
    (ha : a ∈ c.ancestors t) : a ∈ s.included g := by
  rw [hs.included_eq h] at ht ⊢
  by_cases hne : a = t
  · exact hne ▸ ht
  simp only [mem_flatMap, mem_map, mem_filter] at ht ⊢
  obtain ⟨q, ⟨⟨q', included⟩, ⟨hq, hincluded⟩, rfl⟩, htq⟩ := ht
  obtain rfl : included = true := hincluded
  have hqps := hs.passed_mem hq
  -- the ancestor is in a chunk of the cluster
  have hac := c.ancestors_mem t htc a ha
  have hplaced := hac
  rw [← c.placed_transactions] at hplaced
  obtain ⟨p, hpc, hap⟩ := mem_flatMap.1 hplaced
  have hpps := h.mem hc hpc
  have hqseq : q'.sequence = c.sequence := by
    obtain ⟨d, hd, hqd⟩ := h.cluster hqps
    have hcd := h.valid.compatible.eq_of_mem hc hd htc (mem_of_mem_placed hqd htq)
    rw [hcd, sequence_of_mem_placed hqd]
  by_cases hpq : p = q'
  · exact ⟨q', ⟨⟨q', true⟩, ⟨hq, rfl⟩, rfl⟩, hpq ▸ hap⟩
  · -- another chunk, which then comes earlier
    have hrank : p.rank < q'.rank := by
      rcases lt_trichotomy p.rank q'.rank with hlt | heq | hgt
      · exact hlt
      · exact absurd (h.orderly.rank_inj hpps hqps heq) hpq
      · have hbefore := h.ancestor_lt hc htc ha hne
        have hafter := h.compare_of_rank_lt hqps hpps hgt htq hap
        rw [← g.compareMainTransactions_swap, hbefore] at hafter
        cases hafter
    have hseq : p.sequence = q'.sequence := by rw [hqseq, sequence_of_mem_placed hpc]
    exact ⟨p, ⟨⟨p, true⟩, ⟨hs.closed q' hq p hpps hseq hrank, rfl⟩, rfl⟩, hap⟩

end Progress

/-- **The worst chunk** is the last one, with its last transaction first. -/
theorem Ready.getWorstMainChunk (h : Ready g ps) {d : ChunkData τ}
    (hd : g.chunkIndex.getLast? = some d) : g.getWorstMainChunk =
      ((g.chunk d).reverse, (g.entries d.graphIndex).mainChunkFeerate) := by
  have hmem : d ∈ ps.map data := h.indexes.index ▸ mem_of_getLast? hd
  obtain ⟨p, hp, rfl⟩ := mem_map.1 hmem
  rw [MainGraph.getWorstMainChunk, hd]
  simp only
  split
  · next hcount =>
    have hlen : p.transactions.length = 1 := by
      by_contra hne
      have hdata : p.data.chunkCount = p.transactions.length := if_neg fun h => hne h.1
      have hchunk := h.chunkRefs hp
      rw [hdata] at hcount
      rcases hcount with hcount | hcount
      · rw [MainGraph.chunkRefs, if_pos (hdata.trans hcount)] at hchunk
        have := congrArg (length ∘ Prod.fst) hchunk
        exact hne this.symm
      · exact hne hcount
    obtain ⟨t, ht⟩ := length_eq_one_iff.1 hlen
    rw [h.chunk hp]
    simp [data, SetInfo.final, ht]
  · rfl

/-! ## Before the clusters are acceptable -/

theorem Valid.entries_eq {g' : MainGraph τ} (h : Valid g) (h' : Valid g')
    (hc : c ∈ g.clusters) (hc' : c ∈ g'.clusters) (hacc : c.acceptable = true)
    (ht : t ∈ c.linearization) : g.entries t = g'.entries t := by
  rw [← c.placed_transactions] at ht
  obtain ⟨p, hp, htp⟩ := mem_flatMap.1 ht
  obtain ⟨x, hx, rfl⟩ := exists_position htp
  have hindexed : p ∈ c.indexed := by
    rw [indexed, if_pos hacc]
    exact hp
  have hentry : ∀ {k : MainGraph τ}, Valid k → c ∈ k.clusters → k.entries x.1 = p.entry x.2 := by
    intro k hk hck
    obtain ⟨ps, hps, hidx⟩ := hk.indexes
    exact hidx.written p (hps.mem_iff.2 (mem_flatMap.2 ⟨c, hck, hindexed⟩)) x hx
  rw [hentry h hc, hentry h' hc']

variable (lin : Linearizer τ)

theorem Valid.makeTxAcceptable (h : Valid g) (hc : c ∈ g.clusters)
    (ht : t ∈ c.linearization) : Valid (g.makeTxAcceptable lin t) ∧
      c.improve lin ∈ (g.makeTxAcceptable lin t).clusters ∧
      ∀ d ∈ g.clusters, d ∈ (g.makeTxAcceptable lin t).clusters ∨
        d.improve lin ∈ (g.makeTxAcceptable lin t).clusters := by
  have hloc := h.located c hc t ht
  rw [MainGraph.makeTxAcceptable, hloc]
  obtain ⟨hvalid, hperm⟩ := h.makeAcceptable lin c.sequence
  refine ⟨hvalid, hperm.mem_iff.2 (mem_map.2 ⟨c, hc, if_pos (.head _)⟩), fun d hd => ?_⟩
  by_cases hseq : d.sequence ∈ [c.sequence]
  · exact .inr (hperm.mem_iff.2 (mem_map.2 ⟨d, hd, if_pos hseq⟩))
  · exact .inl (hperm.mem_iff.2 (mem_map.2 ⟨d, hd, if_neg hseq⟩))

/-- **`CompareMainOrder` answers as if all clusters were acceptable.** -/
theorem Valid.compareMainOrder_eq (h : Valid g) (ht : t ∈ g.transactions)
    (hu : u ∈ g.transactions) :
    g.compareMainOrder lin t u = (g.makeAllAcceptable lin).compareMainTransactions t u := by
  obtain ⟨c, hc, htc⟩ := mem_flatMap.1 ht
  obtain ⟨d, hd, hud⟩ := mem_flatMap.1 hu
  have htc' := (c.improve_perm lin).mem_iff.2 htc
  have hud' := (d.improve_perm lin).mem_iff.2 hud
  obtain ⟨hall, hperm⟩ := h.makeAllAcceptable lin
  have hmem : ∀ e ∈ g.clusters, e.improve lin ∈ (g.makeAllAcceptable lin).clusters :=
    fun e he => hperm.mem_iff.2 (mem_map_of_mem he)
  obtain ⟨h₁, hc₁, hd₁⟩ := h.makeTxAcceptable lin hc htc
  -- the second cluster is as it was, or acceptable by now
  obtain ⟨e, he, hue, hed⟩ : ∃ e ∈ (g.makeTxAcceptable lin t).clusters, u ∈ e.linearization ∧
      e.improve lin = d.improve lin := by
    rcases hd₁ d hd with hd₁ | hd₁
    · exact ⟨d, hd₁, hud, rfl⟩
    · exact ⟨_, hd₁, hud', improve_of_acceptable lin (d.improve_acceptable lin)⟩
  obtain ⟨h₂, hd₂, hkeep⟩ := h₁.makeTxAcceptable lin he hue
  have hc₂ : c.improve lin ∈ ((g.makeTxAcceptable lin t).makeTxAcceptable lin u).clusters := by
    rcases hkeep _ hc₁ with hc₂ | hc₂
    · exact hc₂
    · rwa [improve_of_acceptable lin (c.improve_acceptable lin)] at hc₂
  rw [hed] at hd₂
  rw [compareMainOrder, compareMainTransactions, compareMainTransactions,
    h₂.entries_eq hall hc₂ (hmem c hc) (c.improve_acceptable lin) htc',
    h₂.entries_eq hall hd₂ (hmem d hd) (d.improve_acceptable lin) hud']

theorem Valid.acceptable_makeAll (h : Valid g) : Acceptable (g.makeAllAcceptable lin) := by
  intro c hc
  obtain ⟨d, -, rfl⟩ := mem_map.1 ((h.makeAllAcceptable lin).2.mem_iff.1 hc)
  exact d.improve_acceptable lin

theorem Valid.transactions_makeAll (h : Valid g) :
    (g.makeAllAcceptable lin).transactions.Perm g.transactions := by
  refine ((h.makeAllAcceptable lin).2.flatMap_right _).trans ?_
  rw [flatMap_map]
  exact .flatMap (.refl _) fun c _ => c.improve_perm lin

end Quarlcoin.TxGraph
