import Quarlcoin.Chain.Index
import Quarlcoin.Pow.Exact
/-!
# The index and the tree

`ChainstateManager` has the entries of the index by their hashes, `BlockTree` the pointers
between them. Over the same entries they have the same ancestors and the same median times.
-/

namespace Quarlcoin

open Arith List Quarlcoin.Pow

/-- The tree has the entries of the index, and the index has their parents. -/
structure ChainstateManager.Linked (m : ChainstateManager) (t : BlockTree Uint256) : Prop where
  pprev_eq : ∀ {hash entry}, m.blockIndex hash = some entry → t.pprev hash = entry.pprev
  nHeight_eq : ∀ {hash entry}, m.blockIndex hash = some entry → t.nHeight hash = entry.nHeight
  nTime_eq : ∀ {hash entry}, m.blockIndex hash = some entry → t.nTime hash = entry.header.nTime
  closed : ∀ {hash entry parent}, m.blockIndex hash = some entry → entry.pprev = some parent →
    ∃ prev, m.blockIndex parent = some prev

namespace ChainstateManager.Linked

variable {m : ChainstateManager} {t : BlockTree Uint256} (h : m.Linked t) {hash : Uint256}
  {entry : IndexEntry}
include h

theorem ancestorLoop_eq (n : ℕ) (hentry : m.blockIndex hash = some entry) :
    m.ancestorLoop n hash = t.back n (some hash) := by
  induction n generalizing hash entry with
  | zero => rfl
  | succ n ih =>
    rw [Links.back_succ_some, h.pprev_eq hentry]
    simp only [ancestorLoop, hentry, Option.bind_eq_bind, Option.bind_some]
    cases hpprev : entry.pprev with
    | none => exact (t.back_none n).symm
    | some parent =>
      obtain ⟨prev, hprev⟩ := h.closed hentry hpprev
      exact ih hprev

/-- Step by step, the index comes to where the skip list does. -/
theorem getAncestor_eq (height : ℕ) (hentry : m.blockIndex hash = some entry) :
    m.getAncestor hash height = t.getAncestor hash height := by
  have hheight := h.nHeight_eq hentry
  simp only [getAncestor, hentry, Option.bind_eq_bind, Option.bind_some]
  split
  · rw [Links.getAncestor, if_pos (by omega)]
  · rw [t.getAncestor_eq_back (by omega), h.ancestorLoop_eq _ hentry, hheight]

theorem ancestorTimes_eq (n : ℕ) (hentry : m.blockIndex hash = some entry) :
    (m.ancestorTimes n (some hash)).map Int64.toInt = t.ancestorTimes n (some hash) := by
  induction n generalizing hash entry with
  | zero => rfl
  | succ n ih =>
    have htime : entry.header.getBlockTime.toInt = t.getBlockTime hash := by
      rw [BlockHeader.getBlockTime, toInt_getBlockTime, Links.getBlockTime, h.nTime_eq hentry]
    rw [ancestorTimes, Links.ancestorTimes, h.pprev_eq hentry]
    simp only [hentry, map_cons, htime]
    cases hpprev : entry.pprev with
    | none => cases n <;> rfl
    | some parent =>
      obtain ⟨prev, hprev⟩ := h.closed hentry hpprev
      rw [ih hprev]

/-- Sorted as 64-bit numbers or as integers, the times have one median. -/
theorem getMedianTimePast_eq (hentry : m.blockIndex hash = some entry) :
    (m.getMedianTimePast hash).toInt = t.getMedianTimePast hash := by
  generalize hn : Links.nMedianTimeSpan = n
  have hsorted : ((m.ancestorTimes n (some hash)).mergeSort).map Int64.toInt =
      (t.ancestorTimes n (some hash)).insertionSort (· ≤ ·) := by
    refine Perm.eq_of_sortedLE ?_ sortedLE_insertionSort ?_
    · refine Pairwise.sortedLE (pairwise_map.2 ?_)
      refine (pairwise_mergeSort ?_ ?_ _).imp fun hle => ?_
      · simpa using fun a b c => Int64.le_trans
      · simpa using Int64.le_total
      · exact Int64.le_iff_toInt_le.1 (of_decide_eq_true hle)
    · rw [← h.ancestorTimes_eq n hentry]
      exact ((mergeSort_perm _ _).map _).trans (perm_insertionSort _ _).symm
  have hlength := congrArg length (h.ancestorTimes_eq n hentry)
  rw [length_map] at hlength
  rw [getMedianTimePast, Links.getMedianTimePast, Median.median, hn, ← hsorted, ← hlength]
  rw [length_mergeSort, ← show (0 : Int64).toInt = 0 from rfl, getD_map]

/-- **The medians of the index** grow as those of the tree do. -/
theorem getMedianTimePast_le {parent : Uint256} (htimes : t.TimesAboveMedian)
    (hentry : m.blockIndex hash = some entry) (hpprev : entry.pprev = some parent) :
    m.getMedianTimePast parent ≤ m.getMedianTimePast hash := by
  obtain ⟨prev, hprev⟩ := h.closed hentry hpprev
  rw [Int64.le_iff_toInt_le, h.getMedianTimePast_eq hprev, h.getMedianTimePast_eq hentry]
  exact (t.medianTimePast_grows htimes).1 hash parent ((h.pprev_eq hentry).trans hpprev)

end ChainstateManager.Linked

end Quarlcoin
