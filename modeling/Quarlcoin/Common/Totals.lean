import Mathlib.Algebra.Order.BigOperators.Group.Finset
import Mathlib.Data.Fintype.BigOperators
import Mathlib.Tactic.Ring
/-!
# Totals over a finite type

The total weight of a function's values, and what it becomes when the function
is changed at one argument.
-/

namespace Quarlcoin.Totals

open Function Finset

variable {α β : Type} [Fintype α] {w : β → ℤ}

def total (w : β → ℤ) (f : α → β) : ℤ := ∑ a, w (f a)

/-- **One change** takes out a weight and puts in another. -/
theorem total_update [DecidableEq α] (f : α → β) (a : α) (b : β) :
    total w (update f a b) = total w f - w (f a) + w b := by
  have hrest : ∀ x ∈ univ.erase a, w (update f a b x) = w (f x) := by
    intro x hx
    rw [update_of_ne (ne_of_mem_erase hx)]
  rw [total, total, ← add_sum_erase _ _ (mem_univ a),
    ← add_sum_erase _ (fun x => w (f x)) (mem_univ a), sum_congr rfl hrest,
    update_self]
  ring

theorem total_const {b : β} (h : w b = 0) : total w (fun _ : α => b) = 0 := by simp [total, h]

theorem total_nonneg {f : α → β} (h : ∀ a, 0 ≤ w (f a)) : 0 ≤ total w f := sum_nonneg fun a _ => h a

/-- **Different arguments** have at most the total between them. -/
theorem sum_le_total [DecidableEq α] {f : α → β} (h : ∀ a, 0 ≤ w (f a)) {l : List α}
    (hl : l.Nodup) : (l.map fun a => w (f a)).sum ≤ total w f := by
  rw [← List.sum_toFinset _ hl]
  exact sum_le_sum_of_subset_of_nonneg (subset_univ _) fun a _ _ => h a

end Quarlcoin.Totals
