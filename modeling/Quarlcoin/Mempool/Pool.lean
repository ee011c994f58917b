import Mathlib.Data.List.Dedup
import Mathlib.Data.List.Sort
import Quarlcoin.Common.Reach
import Quarlcoin.Common.Relatives
import Quarlcoin.Primitives.Serialize
import Quarlcoin.Primitives.Transaction
/-!
# The mempool as a graph of transactions

`CTxMemPool` asks its `TxGraph` for ancestors and descendants. A new transaction depends on
those of the pool that it spends from, and on those added together with it
(`ChangeSet::ProcessDependencies`); a replacement takes out all descendants as well. The
graph is taken to hold the dependencies it was told about.
-/

namespace Quarlcoin

open Arith Reach Relatives Serialize List

/-- `CTransaction` with the hashes it keeps in memory. -/
structure TransactionRef extends Transaction where
  hash : Uint256
  witnessHash : Uint256

/-- The transactions that one spends from, a `std::set<Txid>`: in the order of their bytes. -/
def TransactionRef.inputTxids (tx : TransactionRef) : List Uint256 :=
  (tx.vin.map fun txin => txin.prevout.hash).dedup.insertionSort fun a b =>
    serUint256 a ≤ serUint256 b

/-- `CTxMemPoolEntry`. -/
structure MemPoolEntry where
  tx : TransactionRef
  /-- `GetTxSize`: the virtual size, adjusted for signature operations. -/
  txSize : ℤ

/-- The transaction has an input from another one. -/
def MemPoolEntry.Spends (e : MemPoolEntry) (txid : Uint256) : Prop :=
  txid ≠ e.tx.hash ∧ ∃ input ∈ e.tx.vin, input.prevout.hash = txid

/-- `CTxMemPool`: the entries, and the dependencies of its graph, with the parent
first. -/
structure MemPool where
  mapTx : List MemPoolEntry
  deps : List (Uint256 × Uint256)
  nodup : (mapTx.map (·.tx.hash)).Nodup
  deps_mem : ∀ d ∈ deps, d.1 ∈ mapTx.map (·.tx.hash) ∧ d.2 ∈ mapTx.map (·.tx.hash)

namespace MemPool

variable (pool : MemPool)

def txids : List Uint256 := pool.mapTx.map (·.tx.hash)

variable (txid : Uint256)

def getIter : Option MemPoolEntry := pool.mapTx.find? (·.tx.hash == txid)

def getParents (tx : TransactionRef) : List MemPoolEntry := tx.inputTxids.filterMap pool.getIter

def parentsOf : List Uint256 := (pool.deps.filter (·.2 == txid)).map (·.1)

def childrenOf : List Uint256 := (pool.deps.filter (·.1 == txid)).map (·.2)

/-- `TxGraph::GetAncestors`, with the transaction itself. -/
def getAncestors : List Uint256 :=
  visit pool.parentsOf pool.mapTx.length [txid] []

/-- `TxGraph::GetDescendants`, with the transaction itself. -/
def getDescendants : List Uint256 :=
  visit pool.childrenOf pool.mapTx.length [txid] []

def getAncestorCount : ℕ := (pool.getAncestors txid).length

def getDescendantCount : ℕ := (pool.getDescendants txid).length

/-- `GetEntriesForConflicts`: the conflicts with all their descendants. -/
def getEntriesForConflicts (conflicts : List Uint256) : List Uint256 :=
  visit pool.childrenOf pool.mapTx.length (conflicts.filter (· ∈ pool.txids)) []

/-! ## Replacing -/

/-- `RemoveStaged`, for transactions that are taken out with all their descendants. -/
def removeStaged (stage : List Uint256) : MemPool where
  mapTx := pool.mapTx.filter (·.tx.hash ∉ stage)
  deps := pool.deps.filter fun d => d.1 ∉ stage ∧ d.2 ∉ stage
  nodup := pool.nodup.sublist (filter_sublist.map _)
  deps_mem := by
    intro d hd
    simp only [mem_filter, decide_eq_true_eq] at hd
    obtain ⟨hdeps, h₁, h₂⟩ := hd
    obtain ⟨hm₁, hm₂⟩ := pool.deps_mem d hdeps
    obtain ⟨e₁, he₁, heq₁⟩ := mem_map.1 hm₁
    obtain ⟨e₂, he₂, heq₂⟩ := mem_map.1 hm₂
    exact ⟨mem_map.2 ⟨e₁, by simp [he₁, heq₁, h₁], heq₁⟩,
      mem_map.2 ⟨e₂, by simp [he₂, heq₂, h₂], heq₂⟩⟩

variable (new : List MemPoolEntry)

/-- Transactions that can be added together: none is there already or twice. -/
def Addable : Prop :=
  (new.map (·.tx.hash)).Nodup ∧ ∀ e ∈ new, e.tx.hash ∉ pool.txids

/-- What a new transaction spends from, in the pool or added with it, but for itself. -/
def processDependencies : List (Uint256 × Uint256) :=
  new.flatMap fun e =>
    ((e.tx.vin.map fun txin => txin.prevout.hash).filter fun parent =>
      parent ≠ e.tx.hash ∧ (parent ∈ pool.txids ∨ parent ∈ new.map (·.tx.hash))).map
        fun parent => (parent, e.tx.hash)

/-- The transactions of a change set enter the pool. -/
def addNewTransactions (h : pool.Addable new) : MemPool where
  mapTx := pool.mapTx ++ new
  deps := pool.deps ++ pool.processDependencies new
  nodup := by
    rw [map_append, nodup_append]
    refine ⟨pool.nodup, h.1, fun t ht t' hnew heq => ?_⟩
    obtain ⟨e, he, rfl⟩ := mem_map.1 hnew
    exact h.2 e he (heq ▸ ht)
  deps_mem := by
    intro d hd
    rw [map_append]
    rcases mem_append.1 hd with hd | hd
    · obtain ⟨h₁, h₂⟩ := pool.deps_mem d hd
      exact ⟨mem_append_left _ h₁, mem_append_left _ h₂⟩
    · obtain ⟨e, he, hd⟩ := mem_flatMap.1 hd
      obtain ⟨parent, hparent, rfl⟩ := mem_map.1 hd
      simp only [mem_filter, decide_eq_true_eq] at hparent
      exact ⟨mem_append.2 hparent.2.2, mem_append_right _ (mem_map_of_mem he)⟩

variable {pool}

/-- What can be added still can when others have left. -/
theorem Addable.removeStaged {new : List MemPoolEntry} (h : pool.Addable new)
    (stage : List Uint256) : (pool.removeStaged stage).Addable new := by
  refine ⟨h.1, fun e he hmem => h.2 e he ?_⟩
  obtain ⟨e', he', heq⟩ := mem_map.1 hmem
  exact mem_map.2 ⟨e', (mem_filter.1 he').1, heq⟩

variable (pool)

/-- `Apply` of a change set: conflicts leave with their descendants, new transactions enter. -/
def replace (conflicts : List Uint256) (new : List MemPoolEntry) (h : pool.Addable new) : MemPool :=
  (pool.removeStaged (pool.getEntriesForConflicts conflicts)).addNewTransactions new
    (h.removeStaged _)

/-! ## What the graph says -/

variable {pool} {a b t : Uint256}

/-- `b` depends on `a`. -/
def Dep (pool : MemPool) (a b : Uint256) : Prop := (a, b) ∈ pool.deps

/-- `b` is a descendant of `a` or `a` itself. -/
def Descends (pool : MemPool) : Uint256 → Uint256 → Prop := Relation.ReflTransGen pool.Dep

theorem mem_childrenOf : b ∈ pool.childrenOf a ↔ (a, b) ∈ pool.deps := by simp [childrenOf]

theorem mem_parentsOf : a ∈ pool.parentsOf b ↔ (a, b) ∈ pool.deps := by simp [parentsOf]

/-- Dependencies stay in the pool. -/
theorem closed_childrenOf : Closed pool.childrenOf pool.txids :=
  fun _ _ _ hb => (pool.deps_mem _ (mem_childrenOf.1 hb)).2

theorem closed_parentsOf : Closed pool.parentsOf pool.txids :=
  fun _ _ _ hb => (pool.deps_mem _ (mem_parentsOf.1 hb)).1

theorem length_txids : pool.txids.length = pool.mapTx.length := length_map _

/-- To reach by children is to descend. -/
theorem reaches_childrenOf : Reaches pool.childrenOf a b ↔ pool.Descends a b := by
  simp only [Reaches, mem_childrenOf]
  exact Iff.rfl

theorem reaches_parentsOf : Reaches pool.parentsOf b a ↔ pool.Descends a b := by
  simp only [Reaches, mem_parentsOf]
  exact Relation.reflTransGen_swap

/-- **`GetDescendants`** finds the descendants. -/
theorem mem_getDescendants (ha : a ∈ pool.txids) :
    b ∈ pool.getDescendants a ↔ pool.Descends a b := by
  rw [getDescendants, mem_visit_iff closed_childrenOf (by simpa using ha) length_txids.le]
  simp [reaches_childrenOf]

/-- **`GetAncestors`** finds the ancestors. -/
theorem mem_getAncestors (hb : b ∈ pool.txids) : a ∈ pool.getAncestors b ↔ pool.Descends a b := by
  rw [getAncestors, mem_visit_iff closed_parentsOf (by simpa using hb) length_txids.le]
  simp [reaches_parentsOf]

theorem nodup_getDescendants (ha : a ∈ pool.txids) : (pool.getDescendants a).Nodup :=
  nodup_visit closed_childrenOf (by simpa using ha) length_txids.le

theorem nodup_getAncestors (ha : a ∈ pool.txids) : (pool.getAncestors a).Nodup :=
  nodup_visit closed_parentsOf (by simpa using ha) length_txids.le

section

variable (ht : t ∈ pool.txids)
include ht

/-- A count of one is the transaction itself. -/
theorem getAncestorCount_le_one (h : pool.getAncestorCount t ≤ 1)
    (ha : pool.Descends a t) : a = t :=
  (length_le_one_iff (nodup_getAncestors ht)).1 h a ((mem_getAncestors ht).2 ha) t
    ((mem_getAncestors ht).2 .refl)

theorem getDescendantCount_le_one (h : pool.getDescendantCount t ≤ 1)
    (hb : pool.Descends t b) : b = t :=
  (length_le_one_iff (nodup_getDescendants ht)).1 h b ((mem_getDescendants ht).2 hb) t
    ((mem_getDescendants ht).2 .refl)

/-- **A count of two** is one ancestor besides. -/
theorem getAncestorCount_le_two_iff : pool.getAncestorCount t ≤ 2 ↔ FewAbove pool.Dep t := by
  rw [getAncestorCount, length_le_two_iff (nodup_getAncestors ht) ((mem_getAncestors ht).2 .refl)]
  simp only [mem_getAncestors ht]
  exact ⟨fun h a b ha hb => h a ha b hb, fun h a ha b hb => h a b ha hb⟩

/-- And so for the descendants. -/
theorem getDescendantCount_le_two_iff : pool.getDescendantCount t ≤ 2 ↔ FewBelow pool.Dep t := by
  rw [getDescendantCount,
    length_le_two_iff (nodup_getDescendants ht) ((mem_getDescendants ht).2 .refl)]
  simp only [mem_getDescendants ht]
  exact ⟨fun h a b ha hb => h a ha b hb, fun h a ha b hb => h a b ha hb⟩

end

/-! ## What replacing does -/

section Replace

variable {e p : MemPoolEntry} {conflicts stage : List Uint256} {new : List MemPoolEntry}
  {h : pool.Addable new}

/-- An entry is known by its hash. -/
theorem eq_of_hash_eq (he : e ∈ pool.mapTx) (hp : p ∈ pool.mapTx) (heq : e.tx.hash = p.tx.hash) :
    e = p :=
  inj_on_of_nodup_map pool.nodup he hp heq

theorem mem_txids_of_mem (he : e ∈ pool.mapTx) : e.tx.hash ∈ pool.txids := mem_map_of_mem he

theorem exists_of_mem_txids (ht : t ∈ pool.txids) : ∃ e ∈ pool.mapTx, e.tx.hash = t := mem_map.1 ht

/-- The parents of a transaction in the pool are those that it spends from. -/
theorem mem_getParents {tx : TransactionRef} :
    p ∈ pool.getParents tx ↔ p ∈ pool.mapTx ∧ ∃ input ∈ tx.vin, input.prevout.hash = p.tx.hash := by
  have hfind : ∀ t, pool.getIter t = some p ↔ p ∈ pool.mapTx ∧ p.tx.hash = t := by
    intro t
    constructor
    · intro hsome
      exact ⟨mem_of_find?_eq_some hsome, by simpa using find?_some hsome⟩
    · rintro ⟨hp, rfl⟩
      cases hget : pool.getIter p.tx.hash with
      | none => exact absurd (find?_eq_none.1 hget p hp) (by simp)
      | some q =>
        rw [eq_of_hash_eq (mem_of_find?_eq_some hget) hp (by simpa using find?_some hget)]
  simp only [getParents, mem_filterMap, hfind, TransactionRef.inputTxids,
    mem_insertionSort, mem_dedup, mem_map]
  constructor
  · rintro ⟨t, ⟨input, hinput, rfl⟩, hp, heq⟩
    exact ⟨hp, input, hinput, heq.symm⟩
  · rintro ⟨hp, input, hinput, heq⟩
    exact ⟨_, ⟨input, hinput, rfl⟩, hp, heq.symm⟩

/-- The dependencies among those that stay are kept. -/
theorem dep_removeStaged : (pool.removeStaged stage).Dep a b ↔
    pool.Dep a b ∧ a ∉ stage ∧ b ∉ stage := by
  simp [removeStaged, Dep]

/-- **A replacement**: the conflicts left, the new ones entered. -/
theorem mem_replace : e ∈ (pool.replace conflicts new h).mapTx ↔
    (e ∈ pool.mapTx ∧ e.tx.hash ∉ pool.getEntriesForConflicts conflicts) ∨ e ∈ new := by
  simp [replace, addNewTransactions, removeStaged]

/-- **The dependencies after a replacement**: those that remain, and those of the new
transactions. -/
theorem dep_replace : (pool.replace conflicts new h).Dep a b ↔
    (pool.removeStaged (pool.getEntriesForConflicts conflicts)).Dep a b ∨
      ∃ e ∈ new, e.tx.hash = b ∧ e.Spends a ∧
        ∃ p ∈ (pool.replace conflicts new h).mapTx, p.tx.hash = a := by
  have hfamily : (∃ p ∈ (pool.replace conflicts new h).mapTx, p.tx.hash = a) ↔
      a ∈ (pool.removeStaged (pool.getEntriesForConflicts conflicts)).txids ∨
        a ∈ new.map (·.tx.hash) := by
    rw [← mem_append, replace, addNewTransactions, txids, ← map_append, mem_map]
  rw [hfamily, Dep, replace, addNewTransactions, mem_append]
  refine or_congr Iff.rfl ?_
  simp only [processDependencies, mem_flatMap, mem_map, mem_filter, decide_eq_true_eq]
  constructor
  · rintro ⟨e, he, x, ⟨⟨input, hinput, rfl⟩, hne, hmem⟩, heq⟩
    cases heq
    exact ⟨e, he, rfl, ⟨hne, input, hinput, rfl⟩, hmem⟩
  · rintro ⟨e, he, rfl, ⟨hne, input, hinput, rfl⟩, hmem⟩
    exact ⟨e, he, _, ⟨⟨input, hinput, rfl⟩, hne, hmem⟩, rfl⟩

theorem mem_getEntriesForConflicts (ha : a ∈ conflicts) (hmem : a ∈ pool.txids) :
    a ∈ pool.getEntriesForConflicts conflicts := by
  rw [getEntriesForConflicts, mem_visit_iff closed_childrenOf
    (fun b hb => by simpa using (mem_filter.1 hb).2) length_txids.le]
  exact ⟨a, mem_filter.2 ⟨ha, by simpa using hmem⟩, .refl⟩

end Replace

end MemPool

end Quarlcoin
