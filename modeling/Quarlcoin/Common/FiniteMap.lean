import Mathlib.Algebra.Order.BigOperators.Group.Finset
import Mathlib.Data.Finmap
import Mathlib.Tactic.Abel
/-!
# Finite maps, as functions

What `Finmap.lookup` is after a change, as an update of a function; and maps that are
**mixed** from two others, as a write that was cut short leaves them. A write made to one of
the two and to the mixture keeps it a mixture (`Mixed.update`).
-/

namespace Quarlcoin

namespace FiniteMap

variable {α β : Type} [DecidableEq α] (m : Finmap fun _ : α => β) (a : α)

theorem lookup_insert_eq_update (b : β) :
    (fun x => (m.insert a b).lookup x) = Function.update (fun x => m.lookup x) a (some b) := by
  funext x
  by_cases hx : x = a
  · subst hx
    rw [Finmap.lookup_insert, Function.update_self]
  · rw [Finmap.lookup_insert_of_ne _ hx, Function.update_of_ne hx]

theorem lookup_erase_eq_update :
    (fun x => (m.erase a).lookup x) = Function.update (fun x => m.lookup x) a none := by
  funext x
  by_cases hx : x = a
  · subst hx
    rw [Finmap.lookup_erase, Function.update_self]
  · rw [Finmap.lookup_erase_ne hx, Function.update_of_ne hx]

theorem forall_update {f g : α → Option β} {a : α} {x : Option β} {P : α → β → Prop}
    (hg : g = Function.update f a x) (hold : ∀ y b, f y = some b → P y b)
    (hnew : ∀ b, x = some b → P a b) : ∀ y b, g y = some b → P y b := by
  subst hg
  exact (Function.forall_update_iff f (p := fun y o => ∀ b, o = some b → P y b)).2
    ⟨hnew, fun y _ => hold y⟩

/-- **A loop that changes the values at some keys**, each key once. -/
theorem foldl_update_apply {l : List α} (hl : l.Nodup) (g : β → β) (f : α → β) (x : α) :
    l.foldl (fun f a => Function.update f a (g (f a))) f x = if x ∈ l then g (f x) else f x := by
  induction l generalizing f with
  | nil => simp
  | cons a l ih =>
    rw [List.nodup_cons] at hl
    rw [List.foldl_cons, ih hl.2]
    by_cases hx : x = a
    · subst hx
      simp [hl.1]
    · simp [hx]

end FiniteMap

/-! ## Mixtures -/

section Mixtures

variable {α β : Type} {s t m m' : α → β}

/-- At every key the map has the value of one of two others. -/
def Mixed (s t m : α → β) : Prop := ∀ a, m a = s a ∨ m a = t a

namespace Mixed

theorem left (s t : α → β) : Mixed s t s := fun _ => .inl rfl

theorem eq (h : Mixed t t m) : m = t := funext fun a => (h a).elim id id

variable (h : Mixed s t m)
include h

/-- **A write** made to the first map and to the mixture. -/
theorem update [DecidableEq α] (a : α) (b : β) :
    Mixed (Function.update s a b) t (Function.update m a b) := by
  intro x
  rw [Function.update_apply, Function.update_apply]
  split
  · exact .inl rfl
  · exact h x

/-- **A write of the second map's value**: one more key is through. -/
theorem write [DecidableEq α] (a : α) : Mixed s t (Function.update m a (t a)) := by
  exact (Function.forall_update_iff m (p := fun x y => y = s x ∨ y = t x)).2
    ⟨.inr rfl, fun x _ => h x⟩

theorem trans (h' : Mixed m t m') : Mixed s t m' := by
  intro a
  rcases h' a with hm | ht
  · rw [hm]
    exact h a
  · exact .inr ht

end Mixed

end Mixtures

end Quarlcoin
