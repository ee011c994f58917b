import Quarlcoin.Common.Chunking
import Quarlcoin.Policy.FeeFrac
/-!
# The chunks of the main graph

`TxGraphImpl` of `txgraph.cpp`, as far as the order of the main graph goes:
`ChunkLinearizationInfo` groups the linearization of a cluster into chunks, and `Updated`
writes what `CompareMainTransactions` needs into the entries and the chunk index
`m_main_chunkindex`.

A transaction is named by the same `τ` as a `Ref`, as a `GraphIndex` and as a position of
its cluster; the order of `τ` is the one of `m_fallback_order`. A cluster is pointed to by
its sequence number.
-/

namespace Quarlcoin.TxGraph

open Chunking List

variable {τ : Type*} [LinearOrder τ]

/-! ## Chunks of a linearization -/

/-- `ByRatio`'s `operator<=>`. -/
def byRatio (a b : FeeFrac) : Ordering := compare (a.fee * b.size) (b.fee * a.size)

/-- `FeeFrac`'s `operator+=`, with a sum that fits. -/
def addFeerate (a b : FeeFrac) : FeeFrac := ⟨a.fee + b.fee, a.size + b.size⟩

/-- The values of `int64_t`. -/
abbrev IsInt64 (n : ℤ) : Prop := -2 ^ 63 ≤ n ∧ n < 2 ^ 63

/-- `FeeFrac`'s `operator+=`, as it adds fees in 64 bits. -/
def addFeerate64 (a b : FeeFrac) : FeeFrac := ⟨(a.fee + b.fee).bmod (2 ^ 64), a.size + b.size⟩

/-- `SetInfo`: the transactions are listed in the order of the linearization. -/
structure SetInfo (τ : Type*) where
  transactions : List τ
  feerate : FeeFrac
  nonempty : transactions ≠ []

namespace SetInfo

def single (feerate : τ → FeeFrac) (t : τ) : SetInfo τ := ⟨[t], feerate t, by simp⟩

/-- `operator|=`, with the chunk that comes first in the linearization first. -/
def union (a b : SetInfo τ) : SetInfo τ where
  transactions := a.transactions ++ b.transactions
  feerate := addFeerate a.feerate b.feerate
  nonempty := by simp [a.nonempty]

/-- The same with a sum of 64 bits. -/
def union64 (a b : SetInfo τ) : SetInfo τ :=
  { a.union b with feerate := addFeerate64 a.feerate b.feerate }

variable (c : SetInfo τ)

def final : τ := c.transactions.getLast c.nonempty

/-- The maximum of the chunk by `m_fallback_order`. -/
def maxElement : τ :=
  c.transactions.tail.foldl (fun best t => if best < t then t else best)
    (c.transactions.head c.nonempty)

end SetInfo

def chunkLinearizationInfo (feerate : τ → FeeFrac) (linearization : List τ) : List (SetInfo τ) :=
  chunk (fun new last => byRatio new.feerate last.feerate == .gt) SetInfo.union
    (linearization.map (SetInfo.single feerate))

/-- The same with sums of 64 bits. -/
def chunkLinearizationInfo64 (feerate : τ → FeeFrac) (linearization : List τ) : List (SetInfo τ) :=
  chunk (fun new last => byRatio new.feerate last.feerate == .gt) SetInfo.union64
    (linearization.map (SetInfo.single feerate))

def maxClusterCountLimit : ℕ := 64

/-- `Cluster`. One that is not acceptable has yet to be linearized. -/
structure Cluster (τ : Type*) where
  sequence : ℕ
  /-- The cluster is a `SingletonClusterImpl`. -/
  isSingleton : Bool
  feerate : τ → FeeFrac
  /-- `DepGraph::Ancestors`, with the transaction itself. -/
  ancestors : τ → List τ
  linearization : List τ
  /-- `IsAcceptable`. -/
  acceptable : Bool
  nodup : linearization.Nodup
  count_le : linearization.length ≤ maxClusterCountLimit
  size_pos : ∀ t ∈ linearization, 0 < (feerate t).size
  ancestors_mem : ∀ t ∈ linearization, ∀ a ∈ ancestors t, a ∈ linearization
  /-- The dependencies have no cycle. -/
  acyclic : ∃ order : List τ, order.Perm linearization ∧ order.Pairwise fun a b => b ∉ ancestors a
  /-- An acceptable linearization puts no transaction before an ancestor. -/
  topological : acceptable = true → linearization.Pairwise fun a b => b ∉ ancestors a
  singleton_le : isSingleton = true → linearization.length ≤ 1

/-! ## Entries and the chunk index -/

/-- `Entry`, for the main graph. -/
structure Entry (τ : Type*) where
  /-- `m_locator[0]`: the cluster that the transaction is present in. -/
  locator : Option ℕ
  mainLinIndex : ℕ
  mainChunkFeerate : FeeFrac
  mainEqualFeerateChunkPrefixSize : ℤ
  mainMaxChunkFallback : τ

/-- `LinearizationIndex(-1)`: a chunk of one transaction at the end of its cluster. -/
def singletonTail : ℕ := 2 ^ 32 - 1

structure ChunkData (τ : Type*) where
  /-- The last transaction of the chunk. -/
  graphIndex : τ
  /-- How many transactions the chunk has, or `singletonTail`. -/
  chunkCount : ℕ
  deriving DecidableEq

/-- The main graph. The chunk index is a `std::set`: it is listed in its order. -/
structure MainGraph (τ : Type*) where
  clusters : List (Cluster τ)
  entries : τ → Entry τ
  chunkIndex : List (ChunkData τ)

/-- `CompareClusters`: the null pointer comes before everything else. -/
def compareClusters : Option ℕ → Option ℕ → Ordering
  | some a, some b => compare a b
  | a, b => compare a.isSome.toNat b.isSome.toNat

namespace MainGraph

variable (g : MainGraph τ)

/-- A fresh graph; the other fields of an entry are read of present transactions only. -/
def empty : MainGraph τ where
  clusters := []
  entries t := ⟨none, 0, ⟨0, 0⟩, 0, t⟩
  chunkIndex := []

def compareMainTransactions (a b : τ) : Ordering :=
  if a = b then .eq
  else
    let entryA := g.entries a
    let entryB := g.entries b
    (byRatio entryB.mainChunkFeerate entryA.mainChunkFeerate).then <|
    (compare entryA.mainEqualFeerateChunkPrefixSize entryB.mainEqualFeerateChunkPrefixSize).then <|
    if entryA.locator ≠ entryB.locator then
      (compare entryA.mainMaxChunkFallback entryB.mainMaxChunkFallback).then
        (compareClusters entryA.locator entryB.locator)
    else compare entryA.mainLinIndex entryB.mainLinIndex

def cluster? (sequence : ℕ) : Option (Cluster τ) := g.clusters.find? (·.sequence == sequence)

/-- The insertion of a `std::set` with the order `ChunkOrder`. -/
def insertChunk (d : ChunkData τ) : List (ChunkData τ) → List (ChunkData τ)
  | [] => [d]
  | e :: es =>
    match g.compareMainTransactions d.graphIndex e.graphIndex with
    | .lt => d :: e :: es
    | .eq => e :: es
    | .gt => e :: insertChunk d es

variable (t : τ)

/-- `ClearChunkData`: the transaction's iterator leads to the chunk that it ends. -/
def clearChunkData : MainGraph τ :=
  { g with chunkIndex := g.chunkIndex.filter (·.graphIndex ≠ t) }

def createChunkData (d : ChunkData τ) : MainGraph τ :=
  { g with chunkIndex := g.insertChunk d g.chunkIndex }

def setEntry (e : Entry τ) : MainGraph τ :=
  { g with entries := Function.update g.entries t e }

/-- `SetPresent` and `SetMissing` of the locator. -/
def setLocator (locator : Option ℕ) : MainGraph τ :=
  g.setEntry t { g.entries t with locator }

def clearLocator : MainGraph τ := (g.setLocator t none).clearChunkData t

def removeChunkData (c : Cluster τ) : MainGraph τ := c.linearization.foldl clearChunkData g

end MainGraph

/-! ## `Updated` -/

/-- The transactions of a chunk with their positions are written to their entries. -/
def writeChunk (chunk : SetInfo τ) (prefixSize : ℤ) : List τ → ℕ → MainGraph τ → MainGraph τ
  | [], _, g => g
  | t :: ts, linIdx, g =>
    writeChunk chunk prefixSize ts (linIdx + 1) (g.setEntry t { g.entries t with
        mainLinIndex := linIdx
        mainChunkFeerate := chunk.feerate
        mainEqualFeerateChunkPrefixSize := prefixSize
        mainMaxChunkFallback := chunk.maxElement })

/-- The sum of the chunks with the feerate of the current one, up to the current one. -/
def equalFeerate (sum : FeeFrac) (chunk : SetInfo τ) : FeeFrac :=
  if byRatio chunk.feerate sum = .lt then chunk.feerate else addFeerate sum chunk.feerate

/-- The same with a sum of 64 bits. -/
def equalFeerate64 (sum : FeeFrac) (chunk : SetInfo τ) : FeeFrac :=
  if byRatio chunk.feerate sum = .lt then chunk.feerate else addFeerate64 sum chunk.feerate

def updateChunks (rename : Bool) : List (SetInfo τ) → ℕ → FeeFrac → MainGraph τ → MainGraph τ
  | [], _, _, g => g
  | chunk :: chunks, linIdx, sum, g =>
    let sum := equalFeerate sum chunk
    let chunkCount := chunk.transactions.length
    let g := writeChunk chunk sum.size chunk.transactions linIdx g
    let g := if rename then g else g.createChunkData
      ⟨chunk.final, if chunkCount = 1 ∧ chunks = [] then singletonTail else chunkCount⟩
    updateChunks rename chunks (linIdx + chunkCount) sum g

variable (c : Cluster τ)

/-- The locators of the cluster's transactions are set, and their chunks are forgotten. -/
def updateLocators (rename : Bool) (g : MainGraph τ) : MainGraph τ :=
  c.linearization.foldl (fun g t =>
    (if rename then g else g.clearChunkData t).setLocator t (some c.sequence)) g

def updatedGeneric (rename : Bool) (g : MainGraph τ) : MainGraph τ :=
  let g := updateLocators c rename g
  if rename || c.acceptable then
    updateChunks rename (chunkLinearizationInfo c.feerate c.linearization) 0 ⟨0, 0⟩ g
  else g

def updatedSingleton (rename : Bool) (g : MainGraph τ) : MainGraph τ :=
  match c.linearization with
  | [] => g
  | t :: _ =>
    let g := (if rename then g else g.clearChunkData t).setLocator t (some c.sequence)
    if rename || c.acceptable then
      let g := g.setEntry t
        { g.entries t with
          mainLinIndex := 0
          mainChunkFeerate := c.feerate t
          mainEqualFeerateChunkPrefixSize := (c.feerate t).size
          mainMaxChunkFallback := t }
      if rename then g else g.createChunkData ⟨t, singletonTail⟩
    else g

def updated (rename : Bool) (g : MainGraph τ) : MainGraph τ :=
  if c.isSingleton then updatedSingleton c rename g else updatedGeneric c rename g

/-- A cluster of one transaction is handled as the general case would. -/
theorem updatedSingleton_eq {c : Cluster τ} (hlen : c.linearization.length ≤ 1) (rename : Bool)
    (g : MainGraph τ) : updatedSingleton c rename g = updatedGeneric c rename g := by
  rw [updatedSingleton, updatedGeneric, updateLocators]
  rcases hlin : c.linearization with - | ⟨t, - | ⟨u, ts⟩⟩
  · cases rename <;> cases c.acceptable <;> rfl
  · have hnot : byRatio (c.feerate t) ⟨0, 0⟩ ≠ .lt := by
      simp [byRatio]
    simp only [foldl_cons, foldl_nil, chunkLinearizationInfo, map_cons,
      map_nil, chunk, absorb, reverse_singleton, updateChunks, equalFeerate,
      SetInfo.single, if_neg hnot, addFeerate, zero_add]
    rfl
  · rw [hlin] at hlen
    simp at hlen

theorem updated_eq (rename : Bool) (g : MainGraph τ) :
    updated c rename g = updatedGeneric c rename g := by
  rw [updated]
  split
  · next hsingle => exact updatedSingleton_eq (c.singleton_le hsingle) rename g
  · rfl

/-! ## Changing the clusters -/

/-- The outcome of `Linearize` on a cluster: some topological order. -/
structure Linearizer (τ : Type*) where
  order : Cluster τ → List τ
  perm : ∀ c, (order c).Perm c.linearization
  topological : ∀ c, (order c).Pairwise fun a b => b ∉ c.ancestors a

/-- `Relinearize`, with the work that makes a cluster acceptable. -/
def Cluster.relinearize (lin : Linearizer τ) (c : Cluster τ) : Cluster τ where
  sequence := c.sequence
  isSingleton := c.isSingleton
  feerate := c.feerate
  ancestors := c.ancestors
  linearization := lin.order c
  acceptable := true
  nodup := (lin.perm c).nodup_iff.2 c.nodup
  count_le := (lin.perm c).length_eq ▸ c.count_le
  size_pos t ht := c.size_pos t ((lin.perm c).mem_iff.1 ht)
  ancestors_mem t ht a ha :=
    (lin.perm c).mem_iff.2 (c.ancestors_mem t ((lin.perm c).mem_iff.1 ht) a ha)
  acyclic := ⟨lin.order c, .refl _, lin.topological c⟩
  topological _ := lin.topological c
  singleton_le h := (lin.perm c).length_eq ▸ c.singleton_le h

namespace MainGraph

variable (g : MainGraph τ)

def transactions : List τ := g.clusters.flatMap (·.linearization)

/-- Clusters give way to other ones. Splitting, merging, removals, new dependencies and fees,
relinearizing and committing a staged graph come down to this. Transactions that are in no new
cluster lose their locator. -/
def replace (gone : List ℕ) (new : List (Cluster τ)) : MainGraph τ :=
  let old := g.clusters.filter (·.sequence ∈ gone)
  let dropped := (old.flatMap (·.linearization)).filter fun t => ∀ c ∈ new, t ∉ c.linearization
  let cleared := dropped.foldl clearLocator (old.foldl removeChunkData g)
  new.foldl (fun g c => updated c false g)
    { cleared with clusters := g.clusters.filter (·.sequence ∉ gone) ++ new }

/-- `Updated` as `Compact` calls it, after transactions got other indexes. -/
def rename (sequence : ℕ) : MainGraph τ :=
  match g.cluster? sequence with
  | some c => updated c true g
  | none => g

variable (lin : Linearizer τ)

def makeAcceptable (sequence : ℕ) : MainGraph τ :=
  match g.cluster? sequence with
  | some c => if c.acceptable then g else g.replace [sequence] [c.relinearize lin]
  | none => g

def makeAllAcceptable : MainGraph τ :=
  (g.clusters.map (·.sequence)).foldl (fun g s => g.makeAcceptable lin s) g

/-- The cluster of a transaction is made acceptable. -/
def makeTxAcceptable (t : τ) : MainGraph τ :=
  match (g.entries t).locator with
  | some s => g.makeAcceptable lin s
  | none => g

/-- `CompareMainOrder`, once the dependencies are applied. -/
def compareMainOrder (a b : τ) : Ordering :=
  ((g.makeTxAcceptable lin a).makeTxAcceptable lin b).compareMainTransactions a b

end MainGraph

end Quarlcoin.TxGraph
