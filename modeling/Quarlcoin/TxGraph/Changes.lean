import Mathlib.Data.List.Flatten
import Quarlcoin.TxGraph.MainOrder
/-!
# Changing the clusters of the main graph

In a valid graph the clusters have no transaction in common, the locators lead to them, and
the index lists the chunks of the acceptable ones. Every change of the clusters keeps this.
-/

namespace Quarlcoin.TxGraph

open List MainGraph Cluster

variable {τ : Type*} [LinearOrder τ] {g : MainGraph τ} {ps : List (Placed τ)}

/-- The chunks that a cluster has in the index. -/
def Cluster.indexed (c : Cluster τ) : List (Placed τ) := if c.acceptable then c.placed else []

/-- Clusters that can be in one graph. -/
structure Compatible (cs : List (Cluster τ)) : Prop where
  sequences : (cs.map (·.sequence)).Nodup
  nodup : (cs.flatMap (·.linearization)).Nodup

/-- The entries and the index of a graph are those of these clusters. -/
structure Holds (g : MainGraph τ) (cs : List (Cluster τ)) : Prop where
  compatible : Compatible cs
  located : ∀ c ∈ cs, ∀ t ∈ c.linearization, (g.entries t).locator = some c.sequence
  indexes : ∃ ps, ps.Perm (cs.flatMap (·.indexed)) ∧ Indexes g ps

def Valid (g : MainGraph τ) : Prop := Holds g g.clusters

variable {t u : τ} {g' : MainGraph τ} {cs new : List (Cluster τ)} {c : Cluster τ} {p : Placed τ}

section Compatible

omit [LinearOrder τ]

theorem Cluster.placed_of_indexed (hp : p ∈ c.indexed) : p ∈ c.placed ∧ c.acceptable = true := by
  rw [indexed] at hp
  split at hp
  · next hacc => exact ⟨hp, hacc⟩
  · cases hp

/-- The chunks of a cluster are pieces of its linearization. -/
theorem Cluster.indexed_sublist (c : Cluster τ) :
    (c.indexed.flatMap (·.transactions)).Sublist c.linearization := by
  rw [indexed]
  split
  · rw [c.placed_transactions]
  · exact nil_sublist _

theorem mem_of_indexed (hp : p ∈ cs.flatMap (·.indexed))
    (ht : t ∈ p.transactions) : ∃ c ∈ cs, t ∈ c.linearization ∧ p.sequence = c.sequence := by
  obtain ⟨c, hc, hpc⟩ := mem_flatMap.1 hp
  have hpc := (placed_of_indexed hpc).1
  exact ⟨c, hc, mem_of_mem_placed hpc ht, sequence_of_mem_placed hpc⟩

namespace Compatible

section

variable (h : Compatible cs)
include h

/-- The order of the clusters does not matter. -/
theorem perm {ds : List (Cluster τ)} (hperm : ds.Perm cs) : Compatible ds where
  sequences := (hperm.map _).nodup_iff.2 h.sequences
  nodup := (hperm.flatMap_right _).nodup_iff.2 h.nodup

/-- Some of them are compatible too. -/
theorem filter (keep : Cluster τ → Bool) : Compatible (cs.filter keep) where
  sequences := h.sequences.sublist (filter_sublist.map _)
  nodup := h.nodup.sublist (filter_sublist.flatMap _)

/-- A cluster is known by its sequence number. -/
theorem eq_of_sequence {d : Cluster τ} (hc : c ∈ cs) (hd : d ∈ cs)
    (heq : c.sequence = d.sequence) : c = d :=
  inj_on_of_nodup_map h.sequences hc hd heq

/-- A transaction is in one cluster. -/
theorem eq_of_mem {d : Cluster τ} (hc : c ∈ cs) (hd : d ∈ cs)
    (htc : t ∈ c.linearization) (htd : t ∈ d.linearization) : c = d :=
  Chunking.eq_of_mem_content h.nodup hc hd htc htd

/-- The chunks of compatible clusters can be told apart. -/
theorem orderly : Orderly (cs.flatMap (·.indexed)) where
  size_pos p hp := by
    obtain ⟨c, -, hpc⟩ := mem_flatMap.1 hp
    exact c.size_pos_of_mem_placed (placed_of_indexed hpc).1
  nodup := by
    rw [flatMap_assoc]
    exact h.nodup.sublist (.flatMap_right _ fun c _ => c.indexed_sublist)
  level_inj p hp q hq hseq hlevel := by
    obtain ⟨c, hc, hpc⟩ := mem_flatMap.1 hp
    obtain ⟨d, hd, hqd⟩ := mem_flatMap.1 hq
    have hpc := (placed_of_indexed hpc).1
    have hqd := (placed_of_indexed hqd).1
    have hcd : c = d := by
      refine h.eq_of_sequence hc hd ?_
      rw [← sequence_of_mem_placed hpc, hseq, sequence_of_mem_placed hqd]
    subst hcd
    by_contra hne
    have hsymm : Std.Symm fun p q : Placed τ => p.level ≠ q.level := ⟨fun _ _ h => h.symm⟩
    exact (c.placed_pairwise.imp fun h => ne_of_lt h).forall hpc hqd hne hlevel

end

end Compatible

end Compatible

/-! ## Taking chunks out -/

/-- **Some chunks leave the index.** -/
theorem Indexes.restrict (hg : Indexes g ps) (keep : Placed τ → Bool)
    (gone : τ → Bool) (hentries : ∀ p ∈ ps, keep p = true → ∀ t ∈ p.transactions,
      g'.entries t = g.entries t)
    (hindex : g'.chunkIndex = g.chunkIndex.filter fun d => !gone d.graphIndex)
    (hkeep : ∀ p ∈ ps, keep p = !gone p.final) : Indexes g' (ps.filter keep) where
  written p hp x hx := by
    obtain ⟨hp, hk⟩ := mem_filter.1 hp
    rw [hentries p hp hk _ (Placed.mem_of_mem_positions hx)]
    exact hg.written p hp x hx
  index := by
    rw [hindex, hg.index, filter_map]
    exact congrArg _ (filter_congr fun p hp => (hkeep p hp).symm)
  sorted := hg.sorted.filter _

/-- Entries that no chunk has may change. -/
theorem Indexes.congr (hg : Indexes g ps) (gone : τ → Bool)
    (hentries : ∀ p ∈ ps, ∀ t ∈ p.transactions, g'.entries t = g.entries t)
    (hindex : g'.chunkIndex = g.chunkIndex.filter fun d => !gone d.graphIndex)
    (hkeep : ∀ p ∈ ps, gone p.final = false) : Indexes g' ps := by
  have h := hg.restrict (fun _ => true) gone (fun p hp _ => hentries p hp) hindex
    fun p hp => by rw [hkeep p hp]; rfl
  rwa [filter_true] at h

section Clear

variable (g : MainGraph τ) (ts : List τ)

theorem foldl_clearChunkData : ts.foldl clearChunkData g =
    { g with chunkIndex := g.chunkIndex.filter fun d => !decide (d.graphIndex ∈ ts) } := by
  induction ts generalizing g with
  | nil => simp
  | cons t ts ih =>
    rw [foldl_cons, ih]
    simp only [clearChunkData]
    simp [Bool.and_comm]

/-- The chunks of the old clusters leave the index. -/
theorem foldl_removeChunkData (cs : List (Cluster τ)) : cs.foldl removeChunkData g =
    { g with chunkIndex := g.chunkIndex.filter fun d =>
        !decide (d.graphIndex ∈ cs.flatMap (·.linearization)) } := by
  induction cs generalizing g with
  | nil => simp
  | cons c cs ih =>
    rw [foldl_cons, ih, removeChunkData, foldl_clearChunkData]
    simp [Bool.and_comm]

theorem foldl_clearLocator_chunkIndex : (ts.foldl clearLocator g).chunkIndex =
      g.chunkIndex.filter fun d => !decide (d.graphIndex ∈ ts) := by
  induction ts generalizing g with
  | nil => simp
  | cons t ts ih =>
    rw [foldl_cons, ih]
    simp only [clearLocator, clearChunkData, setLocator, setEntry]
    simp [Bool.and_comm]

theorem foldl_clearLocator_of_notMem {ts : List τ} (hu : u ∉ ts) :
    (ts.foldl clearLocator g).entries u = g.entries u := by
  induction ts generalizing g with
  | nil => rfl
  | cons t ts ih =>
    rw [mem_cons, not_or] at hu
    rw [foldl_cons, ih _ hu.2]
    simp [clearLocator, clearChunkData, setLocator, setEntry, hu.1]

end Clear

/-! ## `Updated` -/

section Updated

variable (c : Cluster τ) (rename : Bool) (g : MainGraph τ)

/-- The locators lead to the cluster, and nothing else changes. -/
theorem updateLocators_entries (u : τ) : (updateLocators c rename g).entries u =
    if u ∈ c.linearization then { g.entries u with locator := some c.sequence }
    else g.entries u := by
  rw [updateLocators]
  generalize c.linearization = ts
  induction ts generalizing g with
  | nil => rfl
  | cons t ts ih =>
    rw [foldl_cons, ih]
    by_cases hut : u = t <;> by_cases hts : u ∈ ts <;> cases rename <;>
      simp [setLocator, setEntry, clearChunkData, hut]

theorem updateLocators_chunkIndex : (updateLocators c rename g).chunkIndex =
    g.chunkIndex.filter fun d => !(!rename && decide (d.graphIndex ∈ c.linearization)) := by
  rw [updateLocators]
  generalize c.linearization = ts
  induction ts generalizing g with
  | nil => simp
  | cons t ts ih =>
    rw [foldl_cons, ih]
    cases rename
    · simp only [setLocator, setEntry, clearChunkData]
      simp [Bool.and_comm]
    · simp [setLocator, setEntry]

theorem updateLocators_clusters : (updateLocators c rename g).clusters = g.clusters := by
  rw [updateLocators]
  generalize c.linearization = ts
  induction ts generalizing g with
  | nil => rfl
  | cons t ts ih =>
    rw [foldl_cons, ih]
    cases rename <;> rfl

theorem updated_clusters : (updated c rename g).clusters = g.clusters := by
  rw [updated_eq, updatedGeneric]
  split
  · rw [updateChunks_eq rename c.sequence]
    exact foldlRecOn _ _ (motive := fun x : MainGraph τ => x.clusters = _) (updateLocators_clusters ..)
      fun _ hg _ _ => (place_clusters ..).trans hg
  · exact updateLocators_clusters c rename g

/-- After `Updated` they still do. -/
theorem updated_locator (u : τ) : ((updated c rename g).entries u).locator =
    if u ∈ c.linearization then some c.sequence else (g.entries u).locator := by
  have h : ((updateLocators c rename g).entries u).locator =
      if u ∈ c.linearization then some c.sequence else (g.entries u).locator := by
    rw [updateLocators_entries]
    split <;> rfl
  rw [updated_eq, updatedGeneric]
  split
  · rw [updateChunks_eq rename c.sequence, foldl_place_locator, h]
  · exact h

variable {c g}

/-- `Updated` leaves other transactions alone. -/
theorem updated_of_notMem (hu : u ∉ c.linearization) :
    (updated c rename g).entries u = g.entries u := by
  have h : (updateLocators c rename g).entries u = g.entries u := by
    rw [updateLocators_entries, if_neg hu]
  rw [updated_eq, updatedGeneric]
  split
  · rw [updateChunks_eq rename c.sequence, foldl_place_of_notMem, h]
    rw [← c.placed_transactions] at hu
    exact hu
  · exact h

end Updated

/-- **`Updated`** enters the cluster's chunks. -/
theorem Indexes.updated (hg : Indexes g ps) (ho : Orderly (c.indexed ++ ps))
    (hdisj : ∀ p ∈ ps, ∀ t ∈ p.transactions, t ∉ c.linearization) :
    ∃ qs : List (Placed τ), qs.Perm (c.indexed ++ ps) ∧ Indexes (TxGraph.updated c false g) qs := by
  have hloc : Indexes (updateLocators c false g) ps := by
    refine hg.congr (fun t => decide (t ∈ c.linearization)) (fun p hp t ht => ?_)
      (updateLocators_chunkIndex c false g) fun p hp => ?_
    · rw [updateLocators_entries, if_neg (hdisj p hp t ht)]
    · exact decide_eq_false (hdisj p hp _ p.final_mem)
  rw [updated_eq, updatedGeneric, Bool.false_or]
  rw [indexed] at ho ⊢
  split
  · next hacc =>
    rw [if_pos hacc] at ho
    rw [updateChunks_eq false c.sequence]
    refine hloc.foldl_place ho fun p hp t ht => ?_
    rw [updateLocators_entries, if_pos (mem_of_mem_placed hp ht), sequence_of_mem_placed hp]
  · exact ⟨ps, .refl _, hloc⟩

namespace Holds

/-- **A new cluster** is entered. -/
theorem updated (h : Holds g cs) (hcomp : Compatible (cs ++ [c])) :
    Holds (TxGraph.updated c false g) (cs ++ [c]) := by
  obtain ⟨ps, hps, hg⟩ := h.indexes
  have hperm : (c.indexed ++ cs.flatMap (·.indexed)).Perm ((cs ++ [c]).flatMap (·.indexed)) := by
    rw [flatMap_append, flatMap_singleton]
    exact perm_append_comm
  have hdisj : ∀ d ∈ cs, ∀ t ∈ d.linearization, t ∉ c.linearization := by
    intro d hd t htd htc
    have hnodup := hcomp.nodup
    rw [flatMap_append, nodup_append] at hnodup
    exact hnodup.2.2 t (mem_flatMap.2 ⟨d, hd, htd⟩) t (by simpa using htc) rfl
  obtain ⟨qs, hqs, hq⟩ := hg.updated (hcomp.orderly.perm ((hps.append_left _).trans hperm))
    fun p hp t ht => by
      obtain ⟨d, hd, htd, -⟩ := mem_of_indexed (hps.mem_iff.1 hp) ht
      exact hdisj d hd t htd
  refine ⟨hcomp, fun d hd t ht => ?_, qs, (hqs.trans (hps.append_left _)).trans hperm, hq⟩
  rw [updated_locator]
  rcases mem_append.1 hd with hd | hd
  · rw [if_neg (hdisj d hd t ht)]
    exact h.located d hd t ht
  · obtain rfl := mem_singleton.1 hd
    exact if_pos ht

/-- One new cluster is entered after another. -/
theorem foldl_updated (h : Holds g cs) (hcomp : Compatible (cs ++ new)) :
    Holds (new.foldl (fun g c => TxGraph.updated c false g) g) (cs ++ new) := by
  induction new generalizing g cs with
  | nil => rwa [append_nil]
  | cons c new ih =>
    rw [append_cons] at hcomp ⊢
    have hfirst : Compatible (cs ++ [c]) := ⟨(nodup_append.1 (map_append ▸ hcomp.sequences)).1,
        (nodup_append.1 (flatMap_append ▸ hcomp.nodup)).1⟩
    exact ih (h.updated hfirst) hcomp

omit [LinearOrder τ] in
theorem filter_indexed (cs : List (Cluster τ)) (gone : List ℕ) :
    (cs.flatMap (·.indexed)).filter (fun p => decide (p.sequence ∉ gone)) =
      (cs.filter fun c => decide (c.sequence ∉ gone)).flatMap (·.indexed) := by
  induction cs with
  | nil => rfl
  | cons c cs ih =>
    have hsequence : ∀ p ∈ c.indexed, p.sequence = c.sequence := fun p hp =>
      sequence_of_mem_placed (placed_of_indexed hp).1
    rw [flatMap_cons, filter_append, ih, filter_cons]
    by_cases hc : c.sequence ∈ gone
    · rw [if_neg (by simpa using hc), filter_eq_nil_iff.2, nil_append]
      intro p hp
      simp [hsequence p hp, hc]
    · rw [if_pos (by simpa using hc), flatMap_cons, filter_eq_self.2]
      intro p hp
      simp [hsequence p hp, hc]

/-- **Old clusters** are taken out, with the locators of some of their transactions. -/
theorem clear (h : Holds g cs) (gone : List ℕ) {dropped : List τ} (hdropped : ∀ t ∈ dropped,
      t ∈ (cs.filter fun c => decide (c.sequence ∈ gone)).flatMap (·.linearization)) :
    Holds (dropped.foldl clearLocator
        ((cs.filter fun c => decide (c.sequence ∈ gone)).foldl removeChunkData g))
      (cs.filter fun c => decide (c.sequence ∉ gone)) := by
  obtain ⟨ps, hps, hg⟩ := h.indexes
  generalize hold : (cs.filter fun c => decide (c.sequence ∈ gone)).flatMap (·.linearization) = old
    at hdropped
  -- a transaction of a cluster is an old one when the cluster goes
  have hiff : ∀ c ∈ cs, ∀ t ∈ c.linearization, t ∈ old ↔ c.sequence ∈ gone := by
    intro c hc t ht
    rw [← hold, mem_flatMap]
    constructor
    · rintro ⟨d, hd, htd⟩
      simp only [mem_filter, decide_eq_true_eq] at hd
      exact h.compatible.eq_of_mem hc hd.1 ht htd ▸ hd.2
    · intro hgone
      exact ⟨c, by simp [hc, hgone], ht⟩
  have hremove : Indexes ((cs.filter fun c => decide (c.sequence ∈ gone)).foldl
      removeChunkData g) (ps.filter fun p => decide (p.sequence ∉ gone)) := by
    rw [foldl_removeChunkData, hold]
    refine hg.restrict _ (fun t => decide (t ∈ old)) (fun _ _ _ _ _ => rfl) rfl fun p hp => ?_
    obtain ⟨c, hc, htc, hseq⟩ := mem_of_indexed (hps.mem_iff.1 hp) p.final_mem
    simp [hiff c hc _ htc, hseq]
  have hnot : ∀ c ∈ cs.filter (fun c => decide (c.sequence ∉ gone)), ∀ t ∈ c.linearization,
      t ∉ dropped := by
    intro c hc t ht htd
    simp only [mem_filter, decide_eq_true_eq] at hc
    exact hc.2 ((hiff c hc.1 t ht).1 (hdropped t htd))
  have hperm := (hps.filter fun p => decide (p.sequence ∉ gone)).trans
    (.of_eq (filter_indexed cs gone))
  refine ⟨h.compatible.filter _, fun c hc t ht => ?_, _, hperm, ?_⟩
  · rw [foldl_clearLocator_of_notMem _ (hnot c hc t ht), foldl_removeChunkData]
    exact h.located c (mem_of_mem_filter hc) t ht
  · refine hremove.congr (fun t => decide (t ∈ dropped)) (fun p hp t ht => ?_)
      (foldl_clearLocator_chunkIndex _ _) fun p hp => ?_
    · obtain ⟨c, hc, htc, -⟩ := mem_of_indexed (hperm.mem_iff.1 hp) ht
      exact foldl_clearLocator_of_notMem _ (hnot c hc t htc)
    · obtain ⟨c, hc, htc, -⟩ := mem_of_indexed (hperm.mem_iff.1 hp) p.final_mem
      exact decide_eq_false (hnot c hc _ htc)

theorem of_clusters (h : Holds g cs) (clusters : List (Cluster τ)) :
    Holds { g with clusters } cs where
  compatible := h.compatible
  located := h.located
  indexes := by
    obtain ⟨ps, hps, hg⟩ := h.indexes
    exact ⟨ps, hps, hg.written, hg.index, hg.sorted⟩

end Holds

/-! ## Valid graphs -/

/-- **The empty graph is valid.** -/
theorem valid_empty : Valid (empty : MainGraph τ) where
  compatible := ⟨nodup_nil, nodup_nil⟩
  located := by simp [empty]
  indexes := ⟨[], .refl _, by simp [Written], rfl, .nil⟩

/-- The new clusters fit to those that stay. -/
def Replaces (g : MainGraph τ) (gone : List ℕ) (new : List (Cluster τ)) : Prop :=
  Compatible ((g.clusters.filter fun c => decide (c.sequence ∉ gone)) ++ new)

theorem replace_clusters (g : MainGraph τ) (gone : List ℕ) (new : List (Cluster τ)) :
    (g.replace gone new).clusters =
      (g.clusters.filter fun c => decide (c.sequence ∉ gone)) ++ new :=
  foldlRecOn _ _ (motive := fun x : MainGraph τ => x.clusters = _) rfl
    fun _ hg _ _ => (updated_clusters ..).trans hg

/-- **Exchanging clusters** keeps the graph valid. -/
theorem Valid.replace (h : Valid g) {gone : List ℕ}
    (hnew : Replaces g gone new) : Valid (g.replace gone new) := by
  rw [Valid, replace_clusters]
  refine Holds.foldl_updated (Holds.of_clusters (h.clear gone ?_) _) hnew
  intro t ht
  exact mem_of_mem_filter ht

theorem foldl_place_rename_chunkIndex (ps : List (Placed τ)) (g : MainGraph τ) :
    (ps.foldl (place true) g).chunkIndex = g.chunkIndex := by
  induction ps generalizing g with
  | nil => rfl
  | cons p ps ih =>
    rw [foldl_cons, ih]
    exact writeChunk_chunkIndex ..

/-- `Updated` after a renaming keeps the index. -/
theorem Holds.rename (h : Holds g cs) (hc : c ∈ cs) : Holds (TxGraph.updated c true g) cs := by
  obtain ⟨ps, hps, hg⟩ := h.indexes
  have hlocators : ∀ d ∈ cs, ∀ t ∈ d.linearization,
      ((TxGraph.updated c true g).entries t).locator = some d.sequence := by
    intro d hd t ht
    rw [updated_locator]
    split
    · next htc => rw [h.compatible.eq_of_mem hc hd htc ht]
    · exact h.located d hd t ht
  refine ⟨h.compatible, hlocators, ps, hps, ?_, ?_, hg.sorted⟩
  · intro p hp x hx
    obtain ⟨d, hd, hpd⟩ := mem_flatMap.1 (hps.mem_iff.1 hp)
    have hpd := (placed_of_indexed hpd).1
    have hxd := mem_of_mem_placed hpd (Placed.mem_of_mem_positions hx)
    by_cases hxc : x.1 ∈ c.linearization
    · obtain rfl := h.compatible.eq_of_mem hc hd hxc hxd
      rw [updated_eq, updatedGeneric, updateChunks_eq true c.sequence]
      have hnodup : (c.placed.flatMap (·.transactions)).Nodup := by
        rw [c.placed_transactions]
        exact c.nodup
      refine foldl_place_of_mem hnodup (fun q hq t ht => ?_) p hpd x hx
      · rw [updateLocators_entries, if_pos (mem_of_mem_placed hq ht), sequence_of_mem_placed hq]
    · rw [updated_of_notMem true hxc]
      exact hg.written p hp x hx
  · rw [← hg.index, updated_eq, updatedGeneric, Bool.true_or, if_pos rfl,
      updateChunks_eq true c.sequence, foldl_place_rename_chunkIndex, updateLocators_chunkIndex]
    simp

omit [LinearOrder τ] in
theorem mem_of_cluster? {s : ℕ} (h : g.cluster? s = some c) : c ∈ g.clusters ∧ c.sequence = s :=
  ⟨mem_of_find?_eq_some h, by simpa using find?_some h⟩

/-- **Renaming transactions** keeps the graph valid. -/
theorem Valid.rename (h : Valid g) (s : ℕ) : Valid (g.rename s) := by
  rw [MainGraph.rename]
  split
  · next c hc =>
    rw [Valid, updated_clusters]
    exact Holds.rename h (mem_of_cluster? hc).1
  · exact h

/-! ## Acceptable clusters -/

variable (lin : Linearizer τ)

/-- A cluster that is made acceptable. -/
def Cluster.improve (c : Cluster τ) : Cluster τ := if c.acceptable then c else c.relinearize lin

namespace Cluster

variable (c : Cluster τ)

omit [LinearOrder τ]

theorem improve_acceptable : (c.improve lin).acceptable = true := by
  rw [improve]
  split
  · next h => exact h
  · rfl

theorem improve_sequence : (c.improve lin).sequence = c.sequence := by
  rw [improve]
  split <;> rfl

theorem improve_ancestors : (c.improve lin).ancestors = c.ancestors := by
  rw [improve]
  split <;> rfl

theorem improve_feerate : (c.improve lin).feerate = c.feerate := by
  rw [improve]
  split <;> rfl

/-- Linearizing keeps the transactions. -/
theorem improve_perm : (c.improve lin).linearization.Perm c.linearization := by
  rw [improve]
  split
  · exact .refl _
  · exact lin.perm c

/-- And so their fees fit. -/
theorem FeesFit.improve {c : Cluster τ} (h : c.FeesFit) : (c.improve lin).FeesFit := by
  intro l hnodup hsub
  rw [c.improve_feerate lin]
  exact h l hnodup fun t ht => (c.improve_perm lin).mem_iff.1 (hsub ht)

/-- An acceptable cluster stays as it is. -/
theorem improve_of_acceptable {c : Cluster τ} (h : c.acceptable = true) : c.improve lin = c :=
  if_pos h

/-- The clusters with these sequence numbers are made acceptable. -/
def improveIf (ss : List ℕ) : Cluster τ := if c.sequence ∈ ss then c.improve lin else c

theorem improveIf_sequence (ss : List ℕ) : (c.improveIf lin ss).sequence = c.sequence := by
  rw [improveIf]
  split
  · exact c.improve_sequence lin
  · rfl

theorem improveIf_improveIf (ss rs : List ℕ) :
    (c.improveIf lin ss).improveIf lin rs = c.improveIf lin (ss ++ rs) := by
  by_cases hs : c.sequence ∈ ss <;> by_cases hr : c.sequence ∈ rs <;>
    simp [improveIf, hs, improve_of_acceptable, improve_acceptable]

end Cluster

omit [LinearOrder τ] in
theorem Compatible.perm_filter (h : Compatible cs) (hc : c ∈ cs) :
    cs.Perm ((cs.filter fun d => decide (d.sequence ∉ [c.sequence])) ++ [c]) := by
  have hnodup : cs.Nodup := h.sequences.of_map _
  refine (perm_ext_iff_of_nodup hnodup ?_).2 fun d => ?_
  · rw [nodup_append]
    refine ⟨hnodup.filter _, nodup_singleton c, ?_⟩
    simp only [mem_filter, mem_singleton, decide_eq_true_eq]
    rintro d ⟨-, hne⟩ _ rfl rfl
    exact hne rfl
  · simp only [mem_append, mem_filter, mem_singleton, decide_eq_true_eq]
    constructor
    · intro hd
      by_cases heq : d.sequence = c.sequence
      · exact .inr (h.eq_of_sequence hd hc heq)
      · exact .inl ⟨hd, heq⟩
    · rintro (⟨hd, -⟩ | rfl)
      · exact hd
      · exact hc

/-- **Making a cluster acceptable** keeps the graph valid and the other clusters. -/
theorem Valid.makeAcceptable (h : Valid g) (s : ℕ) : Valid (g.makeAcceptable lin s) ∧
    (g.makeAcceptable lin s).clusters.Perm (g.clusters.map (·.improveIf lin [s])) := by
  rw [MainGraph.makeAcceptable]
  have hsame : (∀ c ∈ g.clusters, c.improveIf lin [s] = c) →
      g.clusters.Perm (g.clusters.map (·.improveIf lin [s])) := by
    intro hsame
    rw [map_congr_left hsame, map_id']
  split
  · next c hc =>
    obtain ⟨hmem, rfl⟩ := mem_of_cluster? hc
    split
    · next hacc =>
      refine ⟨h, hsame fun d hd => ?_⟩
      rw [improveIf]
      split
      · next heq =>
        obtain rfl := h.compatible.eq_of_sequence hd hmem (mem_singleton.1 heq)
        exact improve_of_acceptable lin hacc
      · rfl
    · next hacc =>
      have hperm := (h.compatible.perm_filter hmem).map (·.improveIf lin [c.sequence])
      have himprove : c.improveIf lin [c.sequence] = c.relinearize lin := by
        rw [improveIf, if_pos (.head _), improve, if_neg hacc]
      have hkept : (g.clusters.filter fun d => decide (d.sequence ∉ [c.sequence])).map
          (·.improveIf lin [c.sequence]) =
          g.clusters.filter fun d => decide (d.sequence ∉ [c.sequence]) := by
        refine (map_congr_left fun d hd => ?_).trans (map_id' _)
        simp only [mem_filter, decide_eq_true_eq] at hd
        exact if_neg hd.2
      rw [map_append, hkept, map_singleton, himprove] at hperm
      rw [replace_clusters]
      refine ⟨h.replace (Compatible.perm ?_ hperm.symm), hperm.symm⟩
      -- the new linearization has the same transactions
      refine ⟨?_, ?_⟩
      · rw [map_map]
        refine (map_congr_left fun d _ => ?_) ▸ h.compatible.sequences
        exact (d.improveIf_sequence lin _).symm
      · rw [flatMap_map]
        refine (List.Perm.flatMap (.refl _) fun d _ => ?_).nodup_iff.2 h.compatible.nodup
        rw [improveIf]
        split
        · exact d.improve_perm lin
        · exact .refl _
  · next hnone =>
    refine ⟨h, hsame fun c hc => if_neg fun heq => ?_⟩
    have := find?_eq_none.1 hnone c hc
    exact this (by simpa using heq)

/-- **Making clusters acceptable**, one after another. -/
theorem Valid.foldl_makeAcceptable (h : Valid g) (ss : List ℕ) :
    Valid (ss.foldl (fun g s => g.makeAcceptable lin s) g) ∧
      (ss.foldl (fun g s => g.makeAcceptable lin s) g).clusters.Perm
        (g.clusters.map (·.improveIf lin ss)) := by
  induction ss generalizing g with
  | nil => exact ⟨h, by simp [improveIf]⟩
  | cons s ss ih =>
    obtain ⟨hvalid, hperm⟩ := h.makeAcceptable lin s
    obtain ⟨hvalid', hperm'⟩ := ih hvalid
    refine ⟨hvalid', hperm'.trans ((hperm.map _).trans (.of_eq ?_))⟩
    rw [map_map]
    exact map_congr_left fun c _ => c.improveIf_improveIf lin [s] ss

/-- **`MakeAllAcceptable`** keeps the graph valid and makes every cluster acceptable. -/
theorem Valid.makeAllAcceptable (h : Valid g) : Valid (g.makeAllAcceptable lin) ∧
    (g.makeAllAcceptable lin).clusters.Perm (g.clusters.map (·.improve lin)) := by
  obtain ⟨hvalid, hperm⟩ := h.foldl_makeAcceptable lin (g.clusters.map (·.sequence))
  refine ⟨hvalid, hperm.trans (.of_eq (map_congr_left fun c hc => ?_))⟩
  exact if_pos (mem_map_of_mem hc)

/-! ## Runs -/

/-- The main graphs that come about. -/
inductive Reachable : MainGraph τ → Prop where
  | empty : Reachable empty
  | replace {g : MainGraph τ} {gone : List ℕ} {new : List (Cluster τ)} (h : Reachable g)
      (hnew : Replaces g gone new) : Reachable (g.replace gone new)
  | rename {g : MainGraph τ} (h : Reachable g) (sequence : ℕ) : Reachable (g.rename sequence)

/-- **The run lemma.** -/
theorem Reachable.valid (h : Reachable g) : Valid g := by
  induction h with
  | empty => exact valid_empty
  | replace _ hnew ih => exact ih.replace hnew
  | rename _ s ih => exact ih.rename s

end Quarlcoin.TxGraph
