import Quarlcoin.TxGraph.Placement
/-!
# The order of the main graph

When the entries are those that `Updated` writes, `CompareMainTransactions` is the order of
the ranks of the chunks and of the positions within a cluster.
-/

namespace Quarlcoin.TxGraph

open List MainGraph Placed Ordering

variable {τ : Type*} [LinearOrder τ] {g : MainGraph τ} {ps : List (Placed τ)} {p q : Placed τ}

/-! ## Comparing transactions -/

structure Orderly (ps : List (Placed τ)) : Prop where
  size_pos : ∀ p ∈ ps, 0 < p.feerate.size
  nodup : (ps.flatMap (·.transactions)).Nodup
  level_inj : ∀ p ∈ ps, ∀ q ∈ ps, p.sequence = q.sequence → p.level = q.level → p = q

variable {qs : List (Placed τ)} {x y : τ × ℕ} {u : τ}

namespace Orderly

omit [LinearOrder τ]

theorem perm (ho : Orderly ps) (hperm : qs.Perm ps) : Orderly qs where
  size_pos p hp := ho.size_pos p (hperm.mem_iff.1 hp)
  nodup := (hperm.flatMap_right _).nodup_iff.2 ho.nodup
  level_inj p hp q hq := ho.level_inj p (hperm.mem_iff.1 hp) q (hperm.mem_iff.1 hq)

theorem of_append (ho : Orderly (qs ++ ps)) : Orderly ps where
  size_pos p hp := ho.size_pos p (mem_append_right _ hp)
  nodup := (nodup_append.1 (flatMap_append ▸ ho.nodup)).2.1
  level_inj p hp q hq := ho.level_inj p (mem_append_right _ hp) q (mem_append_right _ hq)

theorem eq_of_mem (ho : Orderly ps) (hp : p ∈ ps) (hq : q ∈ ps) {t : τ}
    (htp : t ∈ p.transactions) (htq : t ∈ q.transactions) : p = q :=
  Chunking.eq_of_mem_content ho.nodup hp hq htp htq

theorem eq_of_positions (ho : Orderly ps) (hp : p ∈ ps) (hx : x ∈ p.positions)
    (hy : y ∈ p.positions) (h : x.1 = y.1) : x = y := by
  obtain ⟨hxle, hxlt, hxeq⟩ := mem_zipIdx hx
  obtain ⟨hyle, hylt, hyeq⟩ := mem_zipIdx hy
  have hnodup := (nodup_flatMap.1 ho.nodup).1 p hp
  have hget : p.transactions[x.2 - p.start] = p.transactions[y.2 - p.start] := by
    rw [← hxeq, ← hyeq, h]
  have hidx := hnodup.getElem_inj_iff.1 hget
  exact Prod.ext h (by omega)

end Orderly

omit [LinearOrder τ] in
theorem Placed.mem_of_mem_positions (hx : x ∈ p.positions) : x.1 ∈ p.transactions :=
  fst_mem_of_mem_zipIdx hx

/-- The entries are those of the chunks. -/
def Written (g : MainGraph τ) (ps : List (Placed τ)) : Prop :=
  ∀ p ∈ ps, ∀ x ∈ p.positions, g.entries x.1 = p.entry x.2

theorem swap_compare {α : Type*} [LinearOrder α] (a b : α) : (compare a b).swap = compare b a :=
  Std.OrientedCmp.eq_swap.symm

theorem byRatio_swap (a b : FeeFrac) : (byRatio a b).swap = byRatio b a := swap_compare _ _

theorem compareClusters_swap (a b : Option ℕ) :
    (compareClusters a b).swap = compareClusters b a := by
  cases a <;> cases b <;> exact swap_compare _ _

theorem MainGraph.compareMainTransactions_swap (g : MainGraph τ) (a b : τ) :
    (g.compareMainTransactions a b).swap = g.compareMainTransactions b a := by
  rw [compareMainTransactions, compareMainTransactions]
  by_cases hab : a = b
  · rw [if_pos hab, if_pos hab.symm]
    rfl
  rw [if_neg hab, if_neg (Ne.symm hab)]
  simp only [swap_then, byRatio_swap]
  congr 2
  · exact swap_compare _ _
  by_cases hloc : (g.entries a).locator = (g.entries b).locator
  · rw [if_neg (not_not.2 hloc), if_neg (not_not.2 hloc.symm)]
    exact swap_compare _ _
  · rw [if_pos hloc, if_pos (Ne.symm hloc), swap_then, compareClusters_swap]
    congr 1
    exact swap_compare _ _

omit [LinearOrder τ] in
theorem then_compare_level (hp : 0 < p.feerate.size) (hq : 0 < q.feerate.size) :
    (byRatio q.feerate p.feerate).then (compare p.prefixSize q.prefixSize) =
      compare p.level q.level := by
  rw [byRatio_eq hq hp]
  rcases lt_trichotomy p.level q.level with h | h | h
  · rw [compare_lt_iff_lt.2 h, then_eq_lt, compare_lt_iff_lt, compare_eq_iff_eq, compare_lt_iff_lt]
    simpa [level, Prod.Lex.toLex_lt_toLex, eq_comm] using h
  · rw [compare_eq_iff_eq.2 h, then_eq_eq, compare_eq_iff_eq, compare_eq_iff_eq]
    simpa [level, eq_comm] using h
  · rw [compare_gt_iff_gt.2 h, then_eq_gt, compare_gt_iff_gt, compare_gt_iff_gt]
    simpa [level, Prod.Lex.toLex_lt_toLex] using h

/-- **The order of the transactions** is that of the ranks of their chunks, then that
of their positions. -/
theorem Written.compare_lt_iff (hw : Written g ps) (ho : Orderly ps) (hp : p ∈ ps) (hq : q ∈ ps)
    (hx : x ∈ p.positions) (hy : y ∈ q.positions) :
    g.compareMainTransactions x.1 y.1 = .lt ↔ toLex (p.rank, x.2) < toLex (q.rank, y.2) := by
  have hxp := mem_of_mem_positions hx
  have hyq := mem_of_mem_positions hy
  rw [compareMainTransactions, hw p hp x hx, hw q hq y hy]
  split
  · next heq =>
    -- one transaction: it has one chunk and one position
    have hpq := ho.eq_of_mem hp hq hxp (heq ▸ hyq)
    subst hpq
    simp [ho.eq_of_positions hp hx hy heq]
  change (byRatio q.feerate p.feerate).then ((compare p.prefixSize q.prefixSize).then
    (if (p.entry x.2).locator ≠ (q.entry y.2).locator then
      (compare p.maxElement q.maxElement).then
        (compareClusters (some p.sequence) (some q.sequence))
    else compare x.2 y.2)) = .lt ↔ _
  rw [← then_assoc, then_compare_level (ho.size_pos p hp) (ho.size_pos q hq),
    then_eq_lt, compare_lt_iff_lt, compare_eq_iff_eq, Prod.Lex.toLex_lt_toLex,
    rank, rank, Prod.Lex.toLex_lt_toLex, toLex_inj, Prod.mk.injEq, or_assoc,
    and_assoc, ← and_or_left]
  refine or_congr_right (and_congr_right fun hlevel => ?_)
  by_cases hseq : (p.entry x.2).locator = (q.entry y.2).locator
  · rw [if_neg (not_not.2 hseq)]
    have := ho.level_inj p hp q hq (Option.some.inj hseq) hlevel
    simp [this, compare_lt_iff_lt]
  · -- chunks of different clusters have different maxima
    have hmax : p.maxElement ≠ q.maxElement := by
      intro hmax
      have := ho.eq_of_mem hp hq p.maxElement_mem (hmax ▸ q.maxElement_mem)
      exact hseq (congrArg some (congrArg sequence this))
    rw [if_pos hseq, then_eq_lt, compare_lt_iff_lt]
    simp [hmax]

omit [LinearOrder τ] in
theorem Placed.final_positions (p : Placed τ) :
    (p.final, p.start + p.transactions.length - 1) ∈ p.positions := by
  have hlen := length_pos_iff.2 p.nonempty
  rw [positions, mk_mem_zipIdx_iff_le_and_getElem?_sub]
  refine ⟨by omega, ?_⟩
  rw [SetInfo.final, getLast_eq_getElem, getElem?_eq_some_iff]
  refine ⟨by omega, ?_⟩
  congr 1
  omega

theorem Orderly.rank_inj (ho : Orderly ps) (hp : p ∈ ps) (hq : q ∈ ps)
    (h : p.rank = q.rank) : p = q := by
  have hmax : p.maxElement = q.maxElement := (Prod.mk.inj (toLex_inj.1 h)).2
  exact ho.eq_of_mem hp hq p.maxElement_mem (hmax ▸ q.maxElement_mem)

/-- Different chunks are ordered by their ranks, whichever transactions are compared. -/
theorem Written.compare_rank (hw : Written g ps) (ho : Orderly ps) (hp : p ∈ ps) (hq : q ∈ ps)
    (hne : p ≠ q) (hx : x ∈ p.positions) (hy : y ∈ q.positions) :
    g.compareMainTransactions x.1 y.1 = compare p.rank q.rank := by
  have hrank := fun h => hne (ho.rank_inj hp hq h)
  rcases lt_or_gt_of_ne hrank with h | h
  · rw [compare_lt_iff_lt.2 h, hw.compare_lt_iff ho hp hq hx hy, Prod.Lex.toLex_lt_toLex]
    exact .inl h
  have hlt : g.compareMainTransactions y.1 x.1 = .lt := by
    rw [hw.compare_lt_iff ho hq hp hy hx, Prod.Lex.toLex_lt_toLex]
    exact .inl h
  rw [compare_gt_iff_gt.2 h, ← g.compareMainTransactions_swap, hlt]
  rfl

/-! ## The index -/

/-- The entries and the index of the graph are those of the chunks, which are listed by
rank. -/
structure Indexes (g : MainGraph τ) (ps : List (Placed τ)) : Prop where
  written : Written g ps
  index : g.chunkIndex = ps.map data
  sorted : ps.Pairwise fun p q => p.rank < q.rank

theorem insertChunk_map (hcmp : ∀ q ∈ ps, g.compareMainTransactions p.final q.final =
      compare p.rank q.rank) (hne : ∀ q ∈ ps, p.rank ≠ q.rank)
    (hsorted : ps.Pairwise fun p q => p.rank < q.rank) : ∃ qs : List (Placed τ), qs.Perm (p :: ps) ∧
      g.insertChunk p.data (ps.map data) = qs.map data ∧
      qs.Pairwise fun p q => p.rank < q.rank := by
  induction ps with
  | nil => exact ⟨[p], .refl _, rfl, by simp⟩
  | cons q ps ih =>
    obtain ⟨hq, hps⟩ := pairwise_cons.1 hsorted
    have hhead : g.compareMainTransactions p.data.graphIndex q.data.graphIndex =
        compare p.rank q.rank := hcmp q (.head _)
    rw [map_cons, insertChunk]
    rcases lt_or_gt_of_ne (hne q (.head _)) with h | h
    · rw [hhead, compare_lt_iff_lt.2 h]
      refine ⟨p :: q :: ps, .refl _, rfl, pairwise_cons.2 ⟨fun r hr => ?_, hsorted⟩⟩
      rcases mem_cons.1 hr with rfl | hr
      · exact h
      · exact h.trans (hq r hr)
    · obtain ⟨qs, hperm, hins, hqs⟩ := ih (fun r hr => hcmp r (.tail _ hr))
        (fun r hr => hne r (.tail _ hr)) hps
      rw [hhead, compare_gt_iff_gt.2 h]
      refine ⟨q :: qs, (hperm.cons q).trans (.swap ..), by simp [hins], ?_⟩
      refine pairwise_cons.2 ⟨fun r hr => ?_, hqs⟩
      rcases mem_cons.1 (hperm.mem_iff.1 hr) with rfl | hr
      · exact h
      · exact hq r hr

/-! ## Writing the chunks of a cluster -/

section Write

variable (chunk : SetInfo τ) (prefixSize : ℤ) (ts : List τ) (linIdx : ℕ) (g : MainGraph τ)

theorem writeChunk_chunkIndex :
    (writeChunk chunk prefixSize ts linIdx g).chunkIndex = g.chunkIndex := by
  induction ts generalizing linIdx g with
  | nil => rfl
  | cons t ts ih => exact ih _ _

theorem writeChunk_clusters : (writeChunk chunk prefixSize ts linIdx g).clusters = g.clusters := by
  induction ts generalizing linIdx g with
  | nil => rfl
  | cons t ts ih => exact ih _ _

theorem writeChunk_locator (u : τ) :
    ((writeChunk chunk prefixSize ts linIdx g).entries u).locator = (g.entries u).locator := by
  induction ts generalizing linIdx g with
  | nil => rfl
  | cons t ts ih =>
    rw [writeChunk, ih]
    by_cases hut : u = t
    · subst hut
      simp [setEntry]
    · simp [setEntry, hut]

variable {ts linIdx}

theorem writeChunk_of_notMem (hu : u ∉ ts) :
    (writeChunk chunk prefixSize ts linIdx g).entries u = g.entries u := by
  induction ts generalizing linIdx g with
  | nil => rfl
  | cons t ts ih =>
    rw [mem_cons, not_or] at hu
    rw [writeChunk, ih _ hu.2]
    simp [setEntry, hu.1]

theorem writeChunk_of_mem (hnodup : ts.Nodup) (hx : x ∈ ts.zipIdx linIdx) :
    (writeChunk chunk prefixSize ts linIdx g).entries x.1 =
      { locator := (g.entries x.1).locator
        mainLinIndex := x.2
        mainChunkFeerate := chunk.feerate
        mainEqualFeerateChunkPrefixSize := prefixSize
        mainMaxChunkFallback := chunk.maxElement } := by
  induction ts generalizing linIdx g with
  | nil => simp at hx
  | cons t ts ih =>
    rw [zipIdx_cons, mem_cons] at hx
    obtain ⟨hnot, hts⟩ := nodup_cons.1 hnodup
    rw [writeChunk]
    rcases hx with rfl | hx
    · rw [writeChunk_of_notMem _ _ _ hnot]
      simp [setEntry]
    · have hne : x.1 ≠ t := fun h => hnot (h ▸ fst_mem_of_mem_zipIdx hx)
      rw [ih _ hts hx]
      simp [setEntry, hne]

end Write

/-- A chunk is written and entered into the index. -/
def place (rename : Bool) (g : MainGraph τ) (p : Placed τ) : MainGraph τ :=
  let g := writeChunk p.toSetInfo p.prefixSize p.transactions p.start g
  if rename then g else g.createChunkData p.data

theorem updateChunks_eq (rename : Bool) (sequence : ℕ) (chunks : List (SetInfo τ)) (linIdx : ℕ)
    (sum : FeeFrac) (g : MainGraph τ) : updateChunks rename chunks linIdx sum g =
      (placeChunks sequence chunks linIdx sum).foldl (place rename) g := by
  induction chunks generalizing linIdx sum g with
  | nil => rfl
  | cons chunk chunks ih =>
    rw [updateChunks, placeChunks, List.foldl_cons, ih]
    simp [place, data]

section Place

variable (rename : Bool) (g : MainGraph τ)

theorem place_clusters (p : Placed τ) : (place rename g p).clusters = g.clusters := by
  cases rename <;> exact writeChunk_clusters ..

theorem place_entries (p : Placed τ) : (place rename g p).entries =
    (writeChunk p.toSetInfo p.prefixSize p.transactions p.start g).entries := by
  cases rename <;> rfl

theorem foldl_place_locator (ps : List (Placed τ)) (u : τ) :
    ((ps.foldl (place rename) g).entries u).locator = (g.entries u).locator := by
  induction ps generalizing g with
  | nil => rfl
  | cons p ps ih => rw [foldl_cons, ih, place_entries, writeChunk_locator]

variable {rename g}

theorem foldl_place_of_notMem (hu : u ∉ ps.flatMap (·.transactions)) :
    (ps.foldl (place rename) g).entries u = g.entries u := by
  induction ps generalizing g with
  | nil => rfl
  | cons p ps ih =>
    rw [flatMap_cons, mem_append, not_or] at hu
    rw [foldl_cons, ih hu.2, place_entries, writeChunk_of_notMem _ _ _ hu.1]

theorem foldl_place_of_mem (hnodup : (ps.flatMap (·.transactions)).Nodup)
    (hloc : ∀ p ∈ ps, ∀ t ∈ p.transactions, (g.entries t).locator = some p.sequence) :
    Written (ps.foldl (place rename) g) ps := by
  induction ps generalizing g with
  | nil => simp [Written]
  | cons q ps ih =>
    rw [flatMap_cons, nodup_append] at hnodup
    obtain ⟨hq, hps, hdisj⟩ := hnodup
    intro p hp x hx
    have hxp := mem_of_mem_positions hx
    rw [foldl_cons]
    rcases mem_cons.1 hp with rfl | hp
    · rw [foldl_place_of_notMem fun hmem => hdisj _ hxp _ hmem rfl, place_entries,
        writeChunk_of_mem _ _ _ hq hx, hloc p (.head _) _ hxp]
      rfl
    · refine ih hps (fun r hr t ht => ?_) p hp x hx
      rw [place_entries, writeChunk_locator]
      exact hloc r (.tail _ hr) t ht

end Place

/-- **Placing a chunk** enters it into the index and leaves the other chunks alone. -/
theorem Indexes.place (hg : Indexes g ps) (ho : Orderly (p :: ps))
    (hloc : ∀ t ∈ p.transactions, (g.entries t).locator = some p.sequence) :
    ∃ qs : List (Placed τ), qs.Perm (p :: ps) ∧ Indexes (TxGraph.place false g p) qs := by
  have hnodup := nodup_append.1 (flatMap_cons ▸ ho.nodup)
  have hwritten : Written (TxGraph.place false g p) (p :: ps) := by
    intro q hq x hx
    have hxq := mem_of_mem_positions hx
    rw [place_entries]
    rcases mem_cons.1 hq with rfl | hq
    · rw [writeChunk_of_mem _ _ _ hnodup.1 hx, hloc _ hxq]
      rfl
    · have hnot : x.1 ∉ p.transactions := fun hmem =>
        hnodup.2.2 _ hmem _ (mem_flatMap.2 ⟨q, hq, hxq⟩) rfl
      rw [writeChunk_of_notMem _ _ _ hnot]
      exact hg.written q hq x hx
  have hpnot : ∀ q ∈ ps, p ≠ q := by
    intro q hq heq
    exact hnodup.2.2 _ p.final_mem _ (mem_flatMap.2 ⟨q, hq, heq ▸ p.final_mem⟩) rfl
  have hcmp : ∀ q ∈ ps, (TxGraph.place true g p).compareMainTransactions p.final q.final =
      compare p.rank q.rank := by
    intro q hq
    have hw : Written (TxGraph.place true g p) (p :: ps) := by
      intro r hr x hx
      exact hwritten r hr x hx
    exact hw.compare_rank ho (.head _) (.tail _ hq) (hpnot q hq) p.final_positions
      q.final_positions
  obtain ⟨qs, hperm, hins, hsorted⟩ := insertChunk_map hcmp
    (fun q hq h => hpnot q hq (ho.rank_inj (.head _) (.tail _ hq) h)) hg.sorted
  refine ⟨qs, hperm, ⟨fun q hq => hwritten q (hperm.mem_iff.1 hq), ?_, hsorted⟩⟩
  rw [← hins, ← hg.index, ← writeChunk_chunkIndex p.toSetInfo p.prefixSize p.transactions p.start g]
  rfl

theorem Indexes.foldl_place {new : List (Placed τ)} (hg : Indexes g ps) (ho : Orderly (new ++ ps))
    (hloc : ∀ p ∈ new, ∀ t ∈ p.transactions, (g.entries t).locator = some p.sequence) :
    ∃ qs : List (Placed τ), qs.Perm (new ++ ps) ∧
      Indexes (new.foldl (TxGraph.place false) g) qs := by
  induction new generalizing g ps with
  | nil => exact ⟨ps, .refl _, hg⟩
  | cons p new ih =>
    have hperm : (new ++ p :: ps).Perm (p :: new ++ ps) := perm_middle
    have ho' := ho.perm hperm
    obtain ⟨qs, hqs, hplace⟩ := hg.place ho'.of_append (hloc p (.head _))
    obtain ⟨rs, hrs, hfold⟩ := ih hplace (ho'.perm (hqs.append_left new)) fun q hq t ht => by
      rw [place_entries, writeChunk_locator]
      exact hloc q (.tail _ hq) t ht
    exact ⟨rs, (hrs.trans (hqs.append_left new)).trans hperm, hfold⟩

end Quarlcoin.TxGraph
