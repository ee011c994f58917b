import Mathlib.Data.Fintype.BigOperators
import Mathlib.Tactic.Abel
/-!
# Aggregates of a partial map

The sum, in a commutative group, of a weight over the entries of a partial map on a finite
type, as an accumulator holds it in whatever order it is told of them.
-/

namespace Quarlcoin.Aggregate

open Function Option Finset

variable {α β M N : Type} [Fintype α] [AddCommGroup M] [AddCommGroup N] {w : α → β → M}
  {f : α → Option β} {a : α} {b : β}

def aggregate (w : α → β → M) (f : α → Option β) : M := ∑ a, (f a).elim 0 (w a)

theorem aggregate_none : aggregate w (fun _ => none) = 0 := by simp [aggregate]

theorem map_aggregate (φ : M →+ N) : φ (aggregate w f) = aggregate (fun a b => φ (w a b)) f := by
  rw [aggregate, map_sum]
  refine sum_congr rfl fun a _ => ?_
  cases f a with
  | none => exact map_zero φ
  | some b => rfl

variable [DecidableEq α]

theorem aggregate_update (x : Option β) :
    aggregate w (update f a x) = aggregate w f - (f a).elim 0 (w a) + x.elim 0 (w a) := by
  have hrest : ∀ c ∈ univ.erase a,
      (update f a x c).elim 0 (w c) = (f c).elim 0 (w c) := by
    intro c hc
    rw [update_of_ne (ne_of_mem_erase hc)]
  rw [aggregate, aggregate, ← add_sum_erase _ _ (mem_univ a),
    ← add_sum_erase _ (fun c => (f c).elim 0 (w c)) (mem_univ a),
    sum_congr rfl hrest, update_self]
  abel

end Quarlcoin.Aggregate
