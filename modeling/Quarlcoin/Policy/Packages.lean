import Quarlcoin.Mempool.Pool
/-!
# Packages

`policy/packages.cpp`: a package is sorted when no transaction spends from itself
or from a later one, and consistent when no two transactions spend the same
output.
-/

namespace Quarlcoin

open Arith List

def topoSortedLoop : List Uint256 → List TransactionRef → Bool
  | _, [] => true
  | laterTxids, tx :: txns =>
    if tx.vin.any fun input => laterTxids.contains input.prevout.hash then false
    else topoSortedLoop (laterTxids.filter (· ≠ tx.hash)) txns

variable (txns : List TransactionRef)

def isTopoSortedPackage : Bool :=
  topoSortedLoop (txns.map (·.hash)) txns

def consistentLoop : List OutPoint → List TransactionRef → Bool
  | _, [] => true
  | inputsSeen, tx :: txns =>
    if tx.vin.isEmpty then false
    else if tx.vin.any fun input => inputsSeen.contains input.prevout then false
    else consistentLoop (inputsSeen ++ tx.vin.map (·.prevout)) txns

def isConsistentPackage : Bool := consistentLoop [] txns

/-! ## What the checks say -/

variable {txns : List TransactionRef}

theorem topoSortedLoop_spec {laterTxids : List Uint256} (h : topoSortedLoop laterTxids txns = true)
    (hlater : ∀ tx ∈ txns, tx.hash ∈ laterTxids) (hnodup : (txns.map (·.hash)).Nodup) :
    txns.Pairwise (fun tx later => ∀ input ∈ tx.vin, input.prevout.hash ≠ later.hash) ∧
      ∀ tx ∈ txns, ∀ input ∈ tx.vin, input.prevout.hash ≠ tx.hash := by
  induction txns generalizing laterTxids with
  | nil => simp
  | cons tx txns ih =>
    rw [topoSortedLoop] at h
    split at h
    · cases h
    next hspends =>
    have hinput : ∀ input ∈ tx.vin, ∀ later ∈ tx :: txns, input.prevout.hash ≠ later.hash := by
      intro input hinput later hmem heq
      refine hspends (any_eq_true.2 ⟨input, hinput, ?_⟩)
      rw [heq]
      simpa using hlater later hmem
    rw [map_cons, nodup_cons] at hnodup
    have hlater' : ∀ later ∈ txns, later.hash ∈ laterTxids.filter (· ≠ tx.hash) := by
      intro later hmem
      refine mem_filter.2 ⟨hlater later (mem_cons_of_mem _ hmem), ?_⟩
      have hne : later.hash ≠ tx.hash := fun heq => hnodup.1 (heq ▸ mem_map_of_mem hmem)
      simpa using hne
    obtain ⟨hpairs, hself⟩ := ih h hlater' hnodup.2
    refine ⟨pairwise_cons.2 ⟨fun later hmem input hi =>
      hinput input hi later (mem_cons_of_mem _ hmem), hpairs⟩, ?_⟩
    intro tx' htx' input hi
    rcases mem_cons.1 htx' with rfl | htx'
    · exact hinput input hi tx' mem_cons_self
    · exact hself tx' htx' input hi

theorem consistentLoop_spec {inputsSeen : List OutPoint}
    (h : consistentLoop inputsSeen txns = true) :
    (∀ tx ∈ txns, ∃ input ∈ tx.vin, input.prevout ∉ inputsSeen) ∧ txns.Pairwise fun tx later =>
        ∃ input ∈ later.vin, input.prevout ∉ tx.vin.map (·.prevout) := by
  induction txns generalizing inputsSeen with
  | nil => simp
  | cons tx txns ih =>
    rw [consistentLoop] at h
    split at h
    · cases h
    next hempty =>
    split at h
    · cases h
    next hseen =>
    obtain ⟨hfresh, hpairs⟩ := ih h
    have hnot : ∀ input ∈ tx.vin, input.prevout ∉ inputsSeen := by
      intro input hinput hmem
      exact hseen (any_eq_true.2 ⟨input, hinput, by simpa using hmem⟩)
    refine ⟨fun tx' htx' => ?_, pairwise_cons.2 ⟨fun later hmem => ?_, hpairs⟩⟩
    · rcases mem_cons.1 htx' with rfl | htx'
      · obtain ⟨input, hinput⟩ := exists_mem_of_ne_nil _ (by simpa using hempty)
        exact ⟨input, hinput, hnot input hinput⟩
      · obtain ⟨input, hinput, hfresh⟩ := hfresh tx' htx'
        exact ⟨input, hinput, fun hmem => hfresh (mem_append_left _ hmem)⟩
    · obtain ⟨input, hinput, hfresh⟩ := hfresh later hmem
      exact ⟨input, hinput, fun hmem => hfresh (mem_append_right _ hmem)⟩

/-- **Consistent packages** have no transaction twice, if the hash of a transaction
says what it spends. -/
theorem nodup_of_isConsistentPackage (h : isConsistentPackage txns = true)
    (hhash : ∀ tx ∈ txns, ∀ tx' ∈ txns, tx.hash = tx'.hash →
      tx.vin.map (·.prevout) = tx'.vin.map (·.prevout)) : (txns.map (·.hash)).Nodup := by
  have hpairs := (consistentLoop_spec h).2
  rw [nodup_iff_pairwise_ne, pairwise_map]
  refine hpairs.imp_of_mem fun {tx later} htx hlater hpair heq => ?_
  obtain ⟨input, hinput, hfresh⟩ := hpair
  rw [hhash tx htx later hlater heq] at hfresh
  exact hfresh (mem_map_of_mem hinput)

end Quarlcoin
