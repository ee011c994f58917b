import Mathlib.Algebra.BigOperators.Group.Finset.Basic
import Mathlib.Data.Fintype.Basic
import Mathlib.Tactic.Abel
import Mathlib.Tactic.Ring
/-!
# A pool of threads

The states of a pool of threads are a list or a function of the thread. What another thread
finds there when one moves, and what a sum over all of them becomes.
-/

namespace Quarlcoin.Pool

open Function List Finset

variable {α : Type*} {l : List α} {k : ℕ} {x : α}

theorem getElem?_set_of_getElem? (h : l[k]? = some x) (y : α) (j : ℕ) :
    (l.set k y)[j]? = if j = k then some y else l[j]? := by
  obtain ⟨hk, -⟩ := List.getElem?_eq_some_iff.mp h
  rw [getElem?_set, if_pos hk]
  simp only [eq_comm]

/-- A sum over the threads changes by what the moved one contributes. -/
theorem sum_map_set (f : α → ℕ) (y : α) (h : l[k]? = some x) :
    ((l.set k y).map f).sum + f x = (l.map f).sum + f y := by
  induction l generalizing k with
  | nil => simp at h
  | cons a l ih =>
    cases k with
    | zero =>
      simp only [List.getElem?_cons_zero, Option.some.injEq] at h
      subst h
      simp only [List.set_cons_zero, List.map_cons, List.sum_cons]
      omega
    | succ k =>
      have := ih h
      simp only [List.set_cons_succ, List.map_cons, List.sum_cons]
      omega

/-- A sum of ones and zeros is at most the number of threads. -/
theorem sum_map_le_length {f : α → ℕ} (hf : ∀ a, f a ≤ 1) (l : List α) :
    (l.map f).sum ≤ l.length := by
  induction l with
  | nil => simp
  | cons a l ih =>
    have := hf a
    simp only [List.map_cons, List.sum_cons, List.length_cons]
    omega

theorem sum_update {ι M : Type*} [Fintype ι] [DecidableEq ι] [AddCommMonoid M] (thread : ι → α)
    (i : ι) (y : α) (f : α → M) :
    ∑ j, f (update thread i y j) + f (thread i) = ∑ j, f (thread j) + f y := by
  have hsplit := fun g : ι → M => add_sum_erase univ g (mem_univ i)
  have hrest : ∑ j ∈ univ.erase i, f (update thread i y j) =
      ∑ j ∈ univ.erase i, f (thread j) :=
    sum_congr rfl fun j hj => by rw [update_of_ne (ne_of_mem_erase hj)]
  rw [← hsplit fun j => f (update thread i y j), ← hsplit fun j => f (thread j), hrest, update_self]
  abel

end Quarlcoin.Pool
