import Mathlib.Data.List.Sort
/-!
# The upper median of a list

A lower bound on the median is a count (`le_median_iff`), and from the count follows how the
median of a window moves when the window does (`median_le_median_cons_take`).
-/

namespace Quarlcoin.Median

open List

variable {α : Type} [LinearOrder α]

/-- The upper median, `d` for the empty list. -/
def median (d : α) (l : List α) : α :=
  (l.insertionSort (· ≤ ·)).getD (l.length / 2) d

theorem countP_lt_le_iff {s : List α} (hs : s.SortedLE) {m : α} {k : ℕ} (hk : k < s.length) :
    s.countP (· < m) ≤ k ↔ m ≤ s[k] := by
  induction s generalizing k with
  | nil => cases hk
  | cons a s ih =>
    obtain ⟨hleast, hsorted⟩ := pairwise_cons.1 hs.pairwise
    by_cases ha : a < m
    · rw [countP_cons_of_pos (p := (· < m)) (decide_eq_true ha)]
      cases k with
      | zero => simpa using ha
      | succ k =>
        rw [Nat.add_le_add_iff_right]
        exact ih hsorted.sortedLE (Nat.lt_of_succ_lt_succ hk)
    · -- none is below `m` then
      have hall : ∀ b ∈ a :: s, m ≤ b :=
        forall_mem_cons.2 ⟨not_lt.1 ha, fun b hb => (not_lt.1 ha).trans (hleast b hb)⟩
      have hzero : (a :: s).countP (· < m) = 0 :=
        countP_eq_zero.2 fun b hb => by simpa using hall b hb
      exact ⟨fun _ => hall _ (getElem_mem hk), fun _ => hzero ▸ k.zero_le⟩

/-- **The median, as a count.** It is at least `m` when no more than half of
the elements are below `m`. -/
theorem le_median_iff {d m : α} {l : List α} (hl : l ≠ []) :
    m ≤ median d l ↔ l.countP (· < m) ≤ l.length / 2 := by
  have hpos := length_pos_of_ne_nil hl
  have hmid : l.length / 2 < (l.insertionSort (· ≤ ·)).length := by
    rw [length_insertionSort]
    omega
  rw [median, getD_eq_getElem?_getD, getElem?_eq_getElem hmid, Option.getD_some,
    ← countP_lt_le_iff sortedLE_insertionSort hmid,
    (perm_insertionSort _ l).countP_eq]

/-- **A window that moves on to a value above its median** does not lose height. -/
theorem median_le_median_cons_take {d a : α} {l : List α} {n : ℕ} (hl : l ≠ [])
    (hn : l.length ≤ n + 1) (ha : median d l < a) : median d l ≤ median d (a :: l.take n) := by
  have hold := (le_median_iff (d := d) hl).1 le_rfl
  rw [le_median_iff (cons_ne_nil _ _)]
  calc (a :: l.take n).countP (· < median d l)
      = (l.take n).countP (· < median d l) := by rw [countP_cons_of_neg (by simpa using ha.le)]
    _ ≤ l.countP (· < median d l) := (take_sublist n l).countP_le
    _ ≤ (a :: l.take n).length / 2 := by
        rw [length_cons, length_take]
        omega

end Quarlcoin.Median
