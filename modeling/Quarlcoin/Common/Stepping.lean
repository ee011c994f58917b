import Mathlib.Data.Nat.Notation
import Mathlib.Logic.Relation
/-!
# Loops as step functions

A step of a loop fails, goes on with another state, or ends with a result. A loop ends if a
measure becomes smaller in every step and there are more steps than that.
-/

namespace Quarlcoin.Stepping

variable {ε σ τ : Type} {step : σ → Except ε (σ ⊕ τ)}

/-- A number of steps; `none` if the loop has not ended. -/
def runFor (step : σ → Except ε (σ ⊕ τ)) : ℕ → σ → Except ε (Option τ)
  | 0, _ => .ok none
  | n + 1, s =>
    match step s with
    | .error e => .error e
    | .ok (.inl s') => runFor step n s'
    | .ok (.inr t) => .ok (some t)

/-- The states that a loop goes through. -/
def Visits (step : σ → Except ε (σ ⊕ τ)) : σ → σ → Prop :=
  Relation.ReflTransGen fun s s' => step s = .ok (.inl s')

variable {n : ℕ} {s s' u : σ} {t : τ}

/-- After the first state come those that the next one goes through. -/
theorem Visits.eq_or_next (h : step s = .ok (.inl s')) (hu : Visits step s u) :
    u = s ∨ Visits step s' u := by
  rcases hu.cases_head with rfl | ⟨v, hv, hvu⟩
  · exact .inl rfl
  · rw [h] at hv
    cases hv
    exact .inr hvu

/-- A loop that ends in the first state goes through no other. -/
theorem Visits.eq_of_end (h : step s = .ok (.inr t)) (hu : Visits step s u) : u = s := by
  rcases hu.cases_head with rfl | ⟨v, hv, -⟩
  · rfl
  · rw [h] at hv
    cases hv

theorem Visits.head (h : step s = .ok (.inl s')) (hu : Visits step s' u) : Visits step s u :=
  Relation.ReflTransGen.head h hu

end Quarlcoin.Stepping
