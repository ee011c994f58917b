import Mathlib.Logic.Basic
/-!
# Pre- and postconditions of fallible functions

`Ensures r E P` says that the value of `r` satisfies `P` or its error satisfies `E`.
`Ensures.bind` puts the specification of a function together from those it calls.
-/

namespace Quarlcoin

variable {ε ε' α β : Type}

theorem ok_bind (a : α) (f : α → Except ε β) : (Except.ok a >>= f) = f a := rfl

/-- A value satisfies `P`, an error satisfies `E`. -/
def Ensures (r : Except ε α) (E : ε → Prop) (P : α → Prop) : Prop :=
  match r with
  | .ok a => P a
  | .error e => E e

variable {a : α} {e : ε} {f : α → Except ε β} {b : β}

namespace Ensures

variable {r : Except ε α} {E E' : ε → Prop} {P Q : α → Prop}

instance [DecidablePred E] [DecidablePred P] : Decidable (Ensures r E P) :=
  match r with
  | .ok a => inferInstanceAs (Decidable (P a))
  | .error e => inferInstanceAs (Decidable (E e))

theorem exists_ok (h : Ensures r (fun _ => False) P) : ∃ a, r = .ok a ∧ P a := by
  cases r with
  | ok a => exact ⟨a, rfl, h⟩
  | error e => exact h.elim

theorem of_ok (h : P a) : Ensures (.ok a : Except ε α) E P := h

theorem of_error (h : E e) : Ensures (.error e : Except ε α) E P := h

/-- **The rule for a sequence.** -/
theorem bind {R : β → Prop} (hr : Ensures r E P)
    (hf : ∀ a, P a → Ensures (f a) E R) : Ensures (r >>= f) E R := by
  cases r with
  | ok a => exact hf a hr
  | error e => exact hr

variable (h : Ensures r E P)
include h

theorem mono (hE : ∀ e, E e → E' e) (hP : ∀ a, P a → Q a) : Ensures r E' Q := by
  cases r with
  | ok a => exact hP a h
  | error e => exact hE e h

theorem imp (hP : ∀ a, P a → Q a) : Ensures r E Q := h.mono (fun _ he => he) hP

theorem weaken : Ensures r (fun _ => True) P :=
  h.mono (fun _ _ => trivial) fun _ hP => hP

omit h

/-- What holds of every value, with nothing said about errors. -/
theorem of_forall (h : ∀ a, r = .ok a → P a) : Ensures r (fun _ => True) P := by
  cases r with
  | ok a => exact h a rfl
  | error e => exact trivial

variable (h : Ensures r E P)
include h

theorem of_eq_ok (hr : r = .ok a) : P a := by
  subst hr
  exact h

theorem of_eq_error (hr : r = .error e) : E e := by
  subst hr
  exact h

theorem mapError {f : ε → ε'} {E' : ε' → Prop} (hE : ∀ e, E e → E' (f e)) :
    Ensures (r.mapError f) E' P := by
  cases r with
  | ok a => exact h
  | error e => exact hE e h

end Ensures

/-- A sequence that ends with a value went through both parts. -/
theorem bind_eq_ok_iff {r : Except ε α} : (r >>= f) = .ok b ↔ ∃ a, r = .ok a ∧ f a = .ok b := by
  cases r with
  | ok a => exact ⟨fun h => ⟨a, rfl, h⟩, by rintro ⟨a', ⟨rfl⟩, h⟩; exact h⟩
  | error e => exact ⟨fun h => (by cases h), by rintro ⟨a, h, -⟩; cases h⟩

theorem map_eq_ok_iff {r : Except ε α} {f : α → β} :
    r.map f = .ok b ↔ ∃ a, r = .ok a ∧ f a = b := by
  cases r <;> simp [Except.map]

end Quarlcoin
