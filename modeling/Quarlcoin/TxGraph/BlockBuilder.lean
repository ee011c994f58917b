import Quarlcoin.TxGraph.Changes
/-!
# Building a block from the chunks

`BlockBuilderImpl` walks through the chunk index. A chunk that is skipped keeps the later
chunks of its cluster out, unless it is known to be the last one of the cluster.
-/

namespace Quarlcoin.TxGraph

open Cluster List

variable {τ : Type*}

/-! ## The builder -/

/-- The transactions from a position on, and whether the cluster ends with them. -/
def Cluster.getClusterRefs (c : Cluster τ) (startPos count : ℕ) : List τ × Bool :=
  ((c.linearization.drop startPos).take count, startPos + count == c.linearization.length)

/-- The transactions of a chunk of a cluster, and whether it is the last one. -/
def MainGraph.chunkRefs (g : MainGraph τ) (d : ChunkData τ) (cluster : Option ℕ) : List τ × Bool :=
  if d.chunkCount = singletonTail then ([d.graphIndex], true)
  else
    match cluster.bind g.cluster? with
    | some c =>
      c.getClusterRefs ((g.entries d.graphIndex).mainLinIndex + 1 - d.chunkCount) d.chunkCount
    | none => ([], false)

/-- `BlockBuilderImpl`. The iterator is given by what is left of the chunk index. -/
structure BlockBuilder (τ : Type*) where
  rest : List (ChunkData τ)
  excludedClusters : List ℕ
  curCluster : Option ℕ
  knownEndOfCluster : Bool

namespace BlockBuilder

variable (g : MainGraph τ) (b : BlockBuilder τ)

/-- The constructor. It gives `m_known_end_of_cluster` no value: what is there is `indeterminate`.
-/
def new (indeterminate : Bool) : BlockBuilder τ where
  rest := g.chunkIndex
  excludedClusters := []
  curCluster := g.chunkIndex.head?.bind fun d => (g.entries d.graphIndex).locator
  knownEndOfCluster := indeterminate

def nextLoop (excluded : List ℕ) : List (ChunkData τ) → Bool → BlockBuilder τ
  | [], known => ⟨[], excluded, none, known⟩
  | d :: ds, _ =>
    let cluster := (g.entries d.graphIndex).locator
    if cluster.any (· ∈ excluded) then nextLoop excluded ds false
    else ⟨d :: ds, excluded, cluster, false⟩

def next : BlockBuilder τ :=
  match b.rest with
  | [] => b
  | _ :: ds => nextLoop g b.excludedClusters ds b.knownEndOfCluster

def getCurrentChunk : Option (List τ × FeeFrac) × BlockBuilder τ :=
  match b.rest with
  | [] => (none, b)
  | d :: _ =>
    let (refs, known) := g.chunkRefs d b.curCluster
    (some (refs, (g.entries d.graphIndex).mainChunkFeerate), { b with knownEndOfCluster := known })

def includeChunk : BlockBuilder τ := b.next g

def skipChunk : BlockBuilder τ :=
  match b.curCluster with
  | some s =>
    if b.knownEndOfCluster then b.next g
    else next g { b with excludedClusters := s :: b.excludedClusters }
  | none => b.next g

end BlockBuilder

variable (g : MainGraph τ)

/-- `GetWorstMainChunk`, once all clusters are acceptable: the last transaction comes
first. -/
def MainGraph.getWorstMainChunk : List τ × FeeFrac :=
  match g.chunkIndex.getLast? with
  | none => ([], ⟨0, 0⟩)
  | some d =>
    let entry := g.entries d.graphIndex
    if d.chunkCount = singletonTail ∨ d.chunkCount = 1 then ([d.graphIndex], entry.mainChunkFeerate)
    else ((g.chunkRefs d entry.locator).1.reverse, entry.mainChunkFeerate)

/-! ## Using a builder -/

/-- A call of the builder. -/
inductive Call where
  | getCurrentChunk
  | includeChunk
  | skipChunk
  deriving DecidableEq

/-- A builder in use, with the chunks that were decided about: `true` for `Include`. -/
structure Session (τ : Type*) where
  builder : BlockBuilder τ
  taken : List (ChunkData τ × Bool)

variable (s : Session τ)

/-- The chunk at the iterator is decided about. -/
def Session.taking (included : Bool) : List (ChunkData τ × Bool) :=
  s.taken ++ s.builder.rest.head?.toList.map fun d => (d, included)

def Session.call : Call → Session τ
  | .getCurrentChunk => { s with builder := (s.builder.getCurrentChunk g).2 }
  | .includeChunk => ⟨s.builder.includeChunk g, s.taking true⟩
  | .skipChunk => ⟨s.builder.skipChunk g, s.taking false⟩

def Session.run (indeterminate : Bool) (calls : List Call) : Session τ :=
  calls.foldl (Session.call g) ⟨.new g indeterminate, []⟩

def MainGraph.chunk (d : ChunkData τ) : List τ :=
  (g.chunkRefs d (g.entries d.graphIndex).locator).1

def Session.included : List τ :=
  (s.taken.filter (·.2)).flatMap fun x => g.chunk x.1

/-! ## Reading the index -/

section Index

variable [LinearOrder τ] {g : MainGraph τ} {ps : List (Placed τ)} {p q : Placed τ}

def Acceptable (g : MainGraph τ) : Prop := ∀ c ∈ g.clusters, c.acceptable = true

/-- A valid graph of acceptable clusters, with its chunks in order. -/
structure Ready (g : MainGraph τ) (ps : List (Placed τ)) : Prop where
  valid : Valid g
  acceptable : Acceptable g
  perm : ps.Perm (g.clusters.flatMap (·.placed))
  indexes : Indexes g ps

omit [LinearOrder τ] in
theorem Acceptable.flatMap_indexed (ha : Acceptable g) :
    g.clusters.flatMap (·.indexed) = g.clusters.flatMap (·.placed) := by
  rw [flatMap_def, flatMap_def,
    map_congr_left fun c hc => show c.indexed = c.placed from if_pos (ha c hc)]

theorem Valid.ready (hv : Valid g) (ha : Acceptable g) : ∃ ps, Ready g ps := by
  obtain ⟨ps, hps, hg⟩ := hv.indexes
  exact ⟨ps, hv, ha, ha.flatMap_indexed ▸ hps, hg⟩

namespace Ready

section

variable (h : Ready g ps)
include h

theorem orderly : Orderly ps :=
  h.valid.compatible.orderly.perm (h.acceptable.flatMap_indexed ▸ h.perm)

theorem cluster (hp : p ∈ ps) : ∃ c ∈ g.clusters, p ∈ c.placed :=
  mem_flatMap.1 (h.perm.mem_iff.1 hp)

theorem mem {c : Cluster τ} (hc : c ∈ g.clusters) (hp : p ∈ c.placed) : p ∈ ps :=
  h.perm.mem_iff.2 (mem_flatMap.2 ⟨c, hc, hp⟩)

theorem entry_final (hp : p ∈ ps) :
    g.entries p.final = p.entry (p.start + p.transactions.length - 1) :=
  h.indexes.written p hp _ p.final_positions

theorem cluster? {c : Cluster τ} (hc : c ∈ g.clusters) : g.cluster? c.sequence = some c := by
  rcases hfind : g.cluster? c.sequence with - | d
  · exact absurd (by simp) (find?_eq_none.1 hfind c hc)
  · obtain ⟨hd, hseq⟩ := mem_of_cluster? hfind
    rw [h.valid.compatible.eq_of_sequence hd hc hseq]

variable (hp : p ∈ ps)
include hp

/-- **A chunk is read back** from its cluster as it was entered. -/
theorem chunkRefs : g.chunkRefs p.data (some p.sequence) = (p.transactions, p.last) := by
  obtain ⟨c, hc, hpc⟩ := h.cluster hp
  obtain ⟨hslice, hlast⟩ := slice_of_mem_placed hpc
  have hlen := length_pos_iff.2 p.nonempty
  have hle : p.transactions.length ≤ maxClusterCountLimit := by
    refine le_trans ?_ c.count_le
    rw [← hslice]
    simp only [length_take, length_drop]
    omega
  rw [MainGraph.chunkRefs]
  by_cases hsingle : p.transactions.length = 1 ∧ p.last = true
  · have hcount : p.data.chunkCount = singletonTail := if_pos hsingle
    rw [if_pos hcount, hsingle.2]
    obtain ⟨t, ht⟩ := length_eq_one_iff.1 hsingle.1
    simp [Placed.data, SetInfo.final, ht]
  have hcount : p.data.chunkCount = p.transactions.length := if_neg hsingle
  have hne : p.data.chunkCount ≠ singletonTail := by
    rw [singletonTail]
    rw [maxClusterCountLimit] at hle
    omega
  have hentry : (g.entries p.data.graphIndex).mainLinIndex =
      p.start + p.transactions.length - 1 := by
    rw [show p.data.graphIndex = p.final from rfl, h.entry_final hp]
    rfl
  have hstart : p.start + p.transactions.length - 1 + 1 - p.transactions.length = p.start := by
    omega
  rw [if_neg hne, Option.bind_some, sequence_of_mem_placed hpc, h.cluster? hc]
  simp only [getClusterRefs, hentry, hcount, hstart, hslice, Prod.mk.injEq, true_and]
  rw [Bool.eq_iff_iff, beq_iff_eq, hlast]

theorem locator : (g.entries p.data.graphIndex).locator = some p.sequence := by
  rw [show p.data.graphIndex = p.final from rfl, h.entry_final hp]
  rfl

theorem chunk : g.chunk p.data = p.transactions := by
  rw [MainGraph.chunk, h.locator hp, h.chunkRefs hp]

theorem feerate : (g.entries p.data.graphIndex).mainChunkFeerate = p.feerate := by
  rw [show p.data.graphIndex = p.final from rfl, h.entry_final hp]
  rfl

theorem level_lt (hq : q ∈ ps) (hseq : p.sequence = q.sequence)
    (hrank : p.rank < q.rank) : p.level < q.level := by
  rcases Prod.Lex.toLex_lt_toLex.1 hrank with hlt | ⟨heq, -⟩
  · exact hlt
  · have := h.orderly.level_inj p hp q hq hseq heq
    exact absurd hrank (this ▸ lt_irrefl _)

end

end Ready

end Index

end Quarlcoin.TxGraph
