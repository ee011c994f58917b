import Mathlib.Algebra.Order.BigOperators.Group.Finset
import Mathlib.Algebra.BigOperators.Fin
import Mathlib.Tactic.Linarith
/-!
# Shares of a common store

What a holder holds is weighed with every item it holds, the store with every item once; so
if the store outweighs a share for each holder, some holder has more than its share.
-/

namespace Quarlcoin.Shares

open Finset Prod

variable {α ι : Type*}

section Holders

variable [DecidableEq ι] (A : Finset (α × ι)) (w : α → ℤ)

def holders : Finset ι := A.image snd

def held (i : ι) : ℤ := ∑ x ∈ A with x.2 = i, w x.1

variable {A : Finset (α × ι)} {w : α → ℤ} {i : ι}

theorem mem_holders : i ∈ holders A ↔ ∃ a, (a, i) ∈ A := by
  simp only [holders, mem_image, Prod.exists, exists_eq_right]

/-- **Over all holders** every pair is weighed once. -/
theorem sum_held (A : Finset (α × ι)) (w : α → ℤ) : ∑ i ∈ holders A, held A w i = ∑ x ∈ A, w x.1 :=
  sum_fiberwise_of_maps_to (fun _ hx => mem_image_of_mem snd hx) _

/-- **Some holder exceeds its share.** -/
theorem exists_share_lt (share : ℤ) (h : share * (holders A).card < ∑ x ∈ A, w x.1) :
    ∃ i ∈ holders A, share < held A w i := by
  by_contra hno
  have hle : ∑ i ∈ holders A, held A w i ≤ ∑ _i ∈ holders A, share :=
    sum_le_sum fun i hi => not_lt.1 fun hlt => hno ⟨i, hi, hlt⟩
  rw [sum_held, sum_const, nsmul_eq_mul] at hle
  linarith

theorem held_eq_zero (h : i ∉ holders A) : held A w i = 0 := by
  refine sum_eq_zero fun x hx => ?_
  obtain ⟨hmem, rfl⟩ := mem_filter.1 hx
  exact absurd (mem_image_of_mem snd hmem) h

theorem held_one_pos (h : i ∈ holders A) : 0 < held A (fun _ => 1) i := by
  obtain ⟨a, ha⟩ := mem_holders.1 h
  have hmem : (a, i) ∈ A.filter fun x => x.2 = i := mem_filter.2 ⟨ha, rfl⟩
  exact sum_pos (fun _ _ => Int.one_pos) ⟨_, hmem⟩

end Holders

section Items

variable [DecidableEq α] (A : Finset (α × ι)) (w : α → ℤ)

def items : Finset α := A.image fst

def stored : ℤ := ∑ a ∈ items A, w a

variable {A : Finset (α × ι)} {w : α → ℤ} {a : α}

theorem mem_items : a ∈ items A ↔ ∃ i, (a, i) ∈ A := by
  simp only [items, mem_image, Prod.exists, exists_and_right, exists_eq_right]

theorem stored_le (hw : ∀ a, 0 ≤ w a) : stored A w ≤ ∑ x ∈ A, w x.1 := by
  have hfiber : ∑ a ∈ items A, ∑ x ∈ A with x.1 = a, w x.1 = ∑ x ∈ A, w x.1 :=
    sum_fiberwise_of_maps_to (fun _ hx => mem_image_of_mem fst hx) _
  rw [← hfiber]
  refine sum_le_sum fun a ha => ?_
  obtain ⟨i, hi⟩ := mem_items.1 ha
  have hmem : (a, i) ∈ A.filter fun x => x.1 = a := mem_filter.2 ⟨hi, rfl⟩
  exact single_le_sum (fun x _ => hw x.1) hmem

end Items

variable [DecidableEq α] [DecidableEq ι] {A : Finset (α × ι)} {w : α → ℤ} {x : α × ι} {i : ι}

/-! ## A pair more -/

theorem held_insert (hx : x ∉ A) :
    held (insert x A) w i = held A w i + if x.2 = i then w x.1 else 0 := by
  rw [held, filter_insert]
  split
  · rw [sum_insert fun hmem => hx (mem_filter.1 hmem).1, add_comm]
    rfl
  · rw [add_zero]
    rfl

theorem holders_insert : holders (insert x A) = insert x.2 (holders A) := image_insert ..

theorem items_insert : items (insert x A) = insert x.1 (items A) := image_insert ..

theorem items_insert_of_mem (hx : x.1 ∈ items A) : items (insert x A) = items A := by
  rw [items_insert, insert_eq_of_mem hx]

/-! ## A pair less -/

theorem held_erase (hx : x ∈ A) :
    held (A.erase x) w i = held A w i - if x.2 = i then w x.1 else 0 := by
  have h := held_insert (w := w) (i := i) (notMem_erase x A)
  rw [insert_erase hx] at h
  linarith

/-- Another holder of the same item. -/
def Shared (A : Finset (α × ι)) (x : α × ι) : Prop := ∃ y ∈ A, y ≠ x ∧ y.1 = x.1

theorem items_erase_of_shared (h : Shared A x) : items (A.erase x) = items A := by
  obtain ⟨y, hy, hne, heq⟩ := h
  ext a
  rw [mem_items, mem_items]
  constructor
  · rintro ⟨i, hi⟩
    exact ⟨i, mem_of_mem_erase hi⟩
  · rintro ⟨i, hi⟩
    by_cases hai : (a, i) = x
    · subst hai
      obtain ⟨b, j⟩ := y
      subst heq
      exact ⟨j, mem_erase.2 ⟨hne, hy⟩⟩
    · exact ⟨i, mem_erase.2 ⟨hai, hi⟩⟩

theorem items_erase_of_not_shared (h : ¬Shared A x) : items (A.erase x) = (items A).erase x.1 := by
  ext a
  rw [mem_erase, mem_items, mem_items]
  constructor
  · rintro ⟨i, hi⟩
    obtain ⟨hne, hi⟩ := mem_erase.1 hi
    exact ⟨fun ha => h ⟨(a, i), hi, hne, ha⟩, i, hi⟩
  · rintro ⟨hne, i, hi⟩
    exact ⟨i, mem_erase.2 ⟨fun heq => hne (heq ▸ rfl), hi⟩⟩

theorem stored_erase_of_not_shared (hx : x ∈ A) (h : ¬Shared A x) :
    stored (A.erase x) w = stored A w - w x.1 := by
  have hmem : x.1 ∈ items A := mem_image_of_mem fst hx
  rw [stored, items_erase_of_not_shared h, stored, ← sum_erase_add _ _ hmem, add_sub_cancel_right]

end Quarlcoin.Shares
