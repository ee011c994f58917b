import Mathlib.Data.Nat.Notation
/-!
# Simulation of a machine that may fault

If every step of a machine is matched by a step of its specification, which never faults, so
is every run on the inputs the specification is meant for.
-/

namespace Quarlcoin.Simulation

variable {σ τ ι ο ε : Type}

/-- Feed a list of inputs to a machine that may fault. -/
def runAll (step : σ → ι → Except ε (σ × ο)) : σ → List ι → Except ε (σ × List ο)
  | s, [] => .ok (s, [])
  | s, i :: is =>
    match step s i with
    | .error e => .error e
    | .ok (s', o) => (runAll step s' is).map fun r => (r.1, o :: r.2)

def specAll (spec : τ → ι → τ × ο) : τ → List ι → τ × List ο
  | t, [] => (t, [])
  | t, i :: is =>
    ((specAll spec (spec t i).1 is).1, (spec t i).2 :: (specAll spec (spec t i).1 is).2)

/-- Every input meets the condition of the state it finds. -/
def AllLegal (legal : τ → ι → Prop) (spec : τ → ι → τ × ο) : τ → List ι → Prop
  | _, [] => True
  | t, i :: is => legal t i ∧ AllLegal legal spec (spec t i).1 is

theorem specAll_concat (spec : τ → ι → τ × ο) (is : List ι) (i : ι) :
    ∀ t, specAll spec t (is ++ [i]) =
      ((spec (specAll spec t is).1 i).1, (specAll spec t is).2 ++ [(spec (specAll spec t is).1 i).2]) := by
  induction is with
  | nil =>
    intro t
    rfl
  | cons j is ih =>
    intro t
    rw [List.cons_append, specAll, ih]
    rfl

/-- A step of the machine matches the step of its specification. -/
def Matches (R : σ → τ → Prop) (step : σ → ι → Except ε (σ × ο)) (spec : τ → ι → τ × ο)
    (s : σ) (t : τ) (i : ι) : Prop :=
  ∃ s', step s i = .ok (s', (spec t i).2) ∧ R s' (spec t i).1

variable {R : σ → τ → Prop} {step : σ → ι → Except ε (σ × ο)} {spec : τ → ι → τ × ο}
  {legal : τ → ι → Prop}

/-- **From steps to runs.** -/
theorem runAll_of_matches (hstep : ∀ s t i, R s t → legal t i → Matches R step spec s t i) :
    ∀ (is : List ι) (s : σ) (t : τ), R s t → AllLegal legal spec t is →
      ∃ s', runAll step s is = .ok (s', (specAll spec t is).2) ∧ R s' (specAll spec t is).1 := by
  intro is
  induction is with
  | nil =>
    intro s t h _
    exact ⟨s, rfl, h⟩
  | cons i is ih =>
    intro s t h hlegal
    obtain ⟨s₁, hs₁, h₁⟩ := hstep s t i h hlegal.1
    obtain ⟨s', hs', h'⟩ := ih s₁ (spec t i).1 h₁ hlegal.2
    refine ⟨s', ?_, h'⟩
    rw [runAll, hs₁]
    simp only [hs', Except.map, specAll]

/-- **A machine whose answers do not depend on its state**, as long as an
invariant holds that every step keeps. -/
theorem runAll_of_answers {inv : σ → Prop} {answer : ι → ο}
    (hstep : ∀ s i, inv s → ∃ s', step s i = .ok (s', answer i) ∧ inv s') (is : List ι) :
    ∀ s, inv s → ∃ s', runAll step s is = .ok (s', is.map answer) ∧ inv s' := by
  induction is with
  | nil => exact fun s hs => ⟨s, rfl, hs⟩
  | cons i is ih =>
    intro s hs
    obtain ⟨s₁, hone, hs₁⟩ := hstep s i hs
    obtain ⟨s₂, hrun, hs₂⟩ := ih s₁ hs₁
    refine ⟨s₂, ?_, hs₂⟩
    rw [runAll, hone]
    dsimp only
    rw [hrun]
    rfl

end Quarlcoin.Simulation
