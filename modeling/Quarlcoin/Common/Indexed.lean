import Mathlib.Data.Nat.Count
/-!
# Lists read with a running index

What is left of a list from a position on, a chain whose relation may depend on the position
(`IChain`), and a selection, where some positions contribute a value (`selectFrom`).
-/

namespace Quarlcoin.Indexed

open List Nat

variable {α β : Type*} {R S : ℕ → α → α → Prop}

theorem getElem?_of_drop {l rest : List α} {a : α} {i : ℕ} (h : l.drop i = a :: rest) :
    l[i]? = some a ∧ l.drop (i + 1) = rest := by
  rw [← head?_drop, ← tail_drop, h]
  exact ⟨rfl, rfl⟩

/-- `l` continues `a` at position `n`: each element is related to the one before it, at its
position. -/
def IChain (R : ℕ → α → α → Prop) : ℕ → α → List α → Prop
  | _, _, [] => True
  | n, a, b :: l => R n a b ∧ IChain R (n + 1) b l

@[simp] theorem iChain_nil (n : ℕ) (a : α) : IChain R n a [] := trivial

variable {n : ℕ} {a : α} {l l' : List α}

@[simp] theorem iChain_cons {b : α} :
    IChain R n a (b :: l) ↔ R n a b ∧ IChain R (n + 1) b l := Iff.rfl

theorem getLastD_append (l l' : List α) (a : α) :
    (l ++ l').getLastD a = l'.getLastD (l.getLastD a) := by
  induction l generalizing a with
  | nil => rfl
  | cons b l ih => rw [cons_append, getLastD_cons, getLastD_cons, ih]

theorem iChain_append :
    IChain R n a (l ++ l') ↔ IChain R n a l ∧ IChain R (n + l.length) (l.getLastD a) l' := by
  induction l generalizing n a with
  | nil => simp
  | cons b l ih =>
    rw [cons_append, iChain_cons, iChain_cons, ih, getLastD_cons, length_cons,
      and_assoc, show n + 1 + l.length = n + (l.length + 1) by omega]

theorem iChain_concat {b : α} :
    IChain R n a (l ++ [b]) ↔ IChain R n a l ∧ R (n + l.length) (l.getLastD a) b := by
  simp [iChain_append]

theorem IChain.of_isPrefix (h : IChain R n a l') (hl : l <+: l') : IChain R n a l := by
  obtain ⟨t, rfl⟩ := hl
  exact (iChain_append.1 h).1

/-- A chain for one relation is a chain for another that agrees at the
positions it covers. -/
theorem IChain.imp (h : IChain R n a l)
    (hRS : ∀ i, n ≤ i → i < n + l.length → ∀ a b, R i a b → S i a b) : IChain S n a l := by
  induction l generalizing n a with
  | nil => trivial
  | cons b l ih =>
    obtain ⟨hab, hl⟩ := h
    refine ⟨hRS n (le_refl _) (by simp) a b hab, ih hl fun i hi hi' => ?_⟩
    exact hRS i (by omega) (by simp only [length_cons]; omega)

theorem iChain_and :
    IChain (fun i a b => R i a b ∧ S i a b) n a l ↔ IChain R n a l ∧ IChain S n a l := by
  induction l generalizing n a with
  | nil => simp
  | cons b l ih => rw [iChain_cons, iChain_cons, iChain_cons, ih]; tauto

/-! ## Selections -/

/-- The values at the selected positions, the first element standing at position `n`. -/
def selectFrom (p : ℕ → Bool) (f : α → β) : ℕ → List α → List β
  | _, [] => []
  | n, a :: l => if p n then f a :: selectFrom p f (n + 1) l else selectFrom p f (n + 1) l

variable {p q : ℕ → Bool} {f : α → β}

@[simp] theorem selectFrom_nil (n : ℕ) : selectFrom p f n [] = [] := rfl

theorem selectFrom_append (n : ℕ) (l l' : List α) :
    selectFrom p f n (l ++ l') = selectFrom p f n l ++ selectFrom p f (n + l.length) l' := by
  induction l generalizing n with
  | nil => simp
  | cons a l ih =>
    rw [cons_append, selectFrom, selectFrom, ih,
      show n + 1 + l.length = n + (l.length + 1) by omega]
    split <;> simp

theorem selectFrom_concat (n : ℕ) (l : List α) (a : α) : selectFrom p f n (l ++ [a]) =
      selectFrom p f n l ++ (if p (n + l.length) then [f a] else []) := by
  rw [selectFrom_append, selectFrom, selectFrom_nil]

theorem length_selectFrom (P : ℕ → Prop) [DecidablePred P] (l : List α) :
    (selectFrom (fun i => decide (P i)) f 0 l).length = count P l.length := by
  induction l using reverseRecOn with
  | nil => rfl
  | append_singleton l a ih =>
    rw [selectFrom_concat, length_append, length_append, length_singleton, count_succ]
    split <;> simp_all

/-- The selection only asks about the positions of the list. -/
theorem selectFrom_congr (h : ∀ i, n ≤ i → i < n + l.length → p i = q i) :
    selectFrom p f n l = selectFrom q f n l := by
  induction l generalizing n with
  | nil => rfl
  | cons a l ih =>
    rw [selectFrom, selectFrom, h n (le_refl _) (by simp), ih fun i hi hi' =>
      h i (by omega) (by simp only [length_cons]; omega)]

theorem not_selected_of_eq_nil (h : selectFrom p f n l = []) {i : ℕ} (hi : i < l.length) :
    p (n + i) = false := by
  induction l generalizing n i with
  | nil => simp at hi
  | cons a l ih =>
    rw [selectFrom] at h
    split at h
    · simp at h
    rename_i hn
    cases i with
    | zero => simpa using hn
    | succ i =>
      rw [show n + (i + 1) = n + 1 + i by omega]
      exact ih h (by simpa using hi)

/-- **A selection that agrees as far as it goes** agrees position by position. -/
theorem selectFrom_isPrefix (h : selectFrom p f n l <+: selectFrom p f n l') {i : ℕ}
    (hi : i < l.length) (hp : p (n + i) = true) : ∃ hi' : i < l'.length, f l[i] = f l'[i] := by
  induction l generalizing n l' i with
  | nil => simp at hi
  | cons a l ih =>
    cases l' with
    | nil =>
      rw [selectFrom_nil, prefix_nil] at h
      rw [not_selected_of_eq_nil h hi] at hp
      exact absurd hp Bool.false_ne_true
    | cons b l' =>
      rw [selectFrom, selectFrom] at h
      cases i with
      | zero =>
        rw [add_zero] at hp
        rw [if_pos hp, if_pos hp, cons_prefix_cons] at h
        exact ⟨by simp, h.1⟩
      | succ i =>
        have htail : selectFrom p f (n + 1) l <+: selectFrom p f (n + 1) l' := by
          split at h
          · exact (cons_prefix_cons.1 h).2
          · exact h
        obtain ⟨hi', heq⟩ := ih htail (by simpa using hi)
          (by rwa [show n + 1 + i = n + (i + 1) by omega])
        exact ⟨by simpa using hi', heq⟩

end Quarlcoin.Indexed
