import Mathlib.Order.Lattice
import Mathlib.Data.List.Basic
/-!
# The best of a list

The first element that no later one is before. Where `before` compares by a key,
it is an element with the greatest key.
-/

namespace Quarlcoin.Choice

open List Option

variable {α : Type*}

def best (before : α → α → Bool) : List α → Option α
  | [] => none
  | a :: l => some (l.foldl (fun b c => if before c b then c else b) a)

variable {before : α → α → Bool} {l : List α} {a b : α}

theorem best_eq_none_iff : best before l = none ↔ l = [] := by
  cases l with
  | nil => exact ⟨fun _ => rfl, fun _ => rfl⟩
  | cons a l =>
    exact ⟨fun h => absurd h (some_ne_none _), fun h => absurd h (cons_ne_nil a l)⟩

theorem foldl_best_mem (before : α → α → Bool) (l : List α) (a : α) :
    l.foldl (fun b c => if before c b then c else b) a ∈ a :: l := by
  induction l generalizing a with
  | nil => exact mem_cons_self
  | cons c l ih =>
    rw [foldl_cons]
    split
    · exact mem_cons_of_mem a (ih c)
    · rcases mem_cons.1 (ih a) with heq | hmem
      · exact mem_cons.2 (.inl heq)
      · exact mem_cons_of_mem a (mem_cons_of_mem c hmem)

theorem best_mem (h : best before l = some b) : b ∈ l := by
  cases l with
  | nil => cases h
  | cons a l =>
    rw [← some.inj h]
    exact foldl_best_mem before l a

theorem exists_best (h : l ≠ []) : ∃ b, best before l = some b :=
  ne_none_iff_exists'.1 fun hnone => h (best_eq_none_iff.1 hnone)

section

variable {γ : Type*} [LinearOrder γ] {key : α → γ}

theorem le_foldl_best (hkey : ∀ x ∈ a :: l, ∀ y ∈ a :: l, before x y = true ↔ key y < key x) :
    ∀ x ∈ a :: l, key x ≤ key (l.foldl (fun b c => if before c b then c else b) a) := by
  induction l generalizing a with
  | nil =>
    intro x hx
    rw [mem_singleton.1 hx]
    exact le_refl _
  | cons c l ih =>
    have ha : a ∈ a :: c :: l := mem_cons_self
    have hc : c ∈ a :: c :: l := mem_cons_of_mem a mem_cons_self
    have hsub : ∀ d ∈ [a, c], ∀ x ∈ d :: l, x ∈ a :: c :: l := by
      intro d hd x hx
      rcases mem_cons.1 hx with rfl | hx
      · rcases mem_pair.1 hd with rfl | rfl
        · exact ha
        · exact hc
      · exact mem_cons_of_mem a (mem_cons_of_mem c hx)
    intro x hx
    rw [foldl_cons]
    split
    · next hbefore =>
      have hmax := ih fun x hx y hy => hkey x (hsub c (by simp) x hx) y (hsub c (by simp) y hy)
      rcases mem_cons.1 hx with rfl | hx
      · exact le_trans (le_of_lt ((hkey c hc x ha).1 hbefore)) (hmax c mem_cons_self)
      · exact hmax x hx
    · next hbefore =>
      have hmax := ih fun x hx y hy => hkey x (hsub a (by simp) x hx) y (hsub a (by simp) y hy)
      rcases mem_cons.1 hx with rfl | hx
      · exact hmax x mem_cons_self
      · rcases mem_cons.1 hx with rfl | hx
        · have hle : key x ≤ key a := not_lt.1 fun hlt => hbefore ((hkey x hc a ha).2 hlt)
          exact le_trans hle (hmax a mem_cons_self)
        · exact hmax x (mem_cons_of_mem a hx)

/-- **The best has the greatest key.** -/
theorem le_best (hkey : ∀ x ∈ l, ∀ y ∈ l, before x y = true ↔ key y < key x)
    (h : best before l = some b) : ∀ x ∈ l, key x ≤ key b := by
  cases l with
  | nil => cases h
  | cons a l =>
    rw [← some.inj h]
    exact le_foldl_best hkey

end

end Quarlcoin.Choice
