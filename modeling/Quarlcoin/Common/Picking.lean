import Mathlib.Algebra.BigOperators.Group.List.Basic
import Mathlib.Algebra.Ring.Int.Defs
import Mathlib.Data.List.Nodup
import Mathlib.Data.List.Perm.Subperm
/-!
# Picking from a pool

A search over the subsets of a pool keeps the picked ones as a stack of positions or as one
flag per element. What such a selection picks, and what its sums become.
-/

namespace Quarlcoin.Picking

open List

variable {α : Type} {f : α → ℤ} {pool : List α} {i : ℕ} {a : α} {sel : List ℕ}

def sumOf (f : α → ℤ) (l : List α) : ℤ := (l.map f).sum

@[simp] theorem sumOf_nil : sumOf f [] = 0 := rfl

variable {l l' : List α} {next : ℕ}

@[simp] theorem sumOf_cons : sumOf f (a :: l) = f a + sumOf f l := by simp [sumOf]

@[simp] theorem sumOf_append : sumOf f (l ++ l') = sumOf f l + sumOf f l' := by
  simp [sumOf]

theorem sumOf_sub {g : α → ℤ} (l : List α) :
    sumOf (fun a => f a - g a) l = sumOf f l - sumOf g l := by
  induction l with
  | nil => rfl
  | cons a l ih => rw [sumOf_cons, sumOf_cons, sumOf_cons]; omega

theorem sumOf_perm (h : l.Perm l') : sumOf f l = sumOf f l' := (h.map f).sum_eq

theorem sumOf_flatMap {β : Type} {g : β → List α} {F : β → ℤ} {l : List β}
    (h : ∀ b ∈ l, F b = sumOf f (g b)) : sumOf f (l.flatMap g) = sumOf F l := by
  induction l with
  | nil => rfl
  | cons b l ih =>
    rw [flatMap_cons, sumOf_append, sumOf_cons, h b mem_cons_self,
      ih fun b' hb' => h b' (mem_cons_of_mem _ hb')]

/-! ## What is left of a pool -/

theorem drop_eq_cons (h : pool[i]? = some a) : pool.drop i = a :: pool.drop (i + 1) := by
  obtain ⟨hi, rfl⟩ := List.getElem?_eq_some_iff.mp h
  exact drop_eq_getElem_cons hi

theorem sumOf_drop (h : pool[i]? = some a) :
    sumOf f (pool.drop i) = f a + sumOf f (pool.drop (i + 1)) := by
  rw [drop_eq_cons h, sumOf_cons]

/-- A position at which something is left is one of the pool. -/
theorem lt_length_of_sumOf_drop_pos (h : 0 < sumOf f (pool.drop i)) : i < pool.length := by
  by_contra hi
  rw [drop_eq_nil_of_le (by omega), sumOf_nil] at h
  omega

/-! ## Positions -/

def picked (pool : List α) (sel : List ℕ) : List α := sel.filterMap (pool[·]?)

theorem picked_cons (h : pool[i]? = some a) : picked pool (i :: sel) = a :: picked pool sel := by
  rw [picked, filterMap_cons, h, picked]

theorem sumOf_picked_cons (h : pool[i]? = some a) :
    sumOf f (picked pool (i :: sel)) = f a + sumOf f (picked pool sel) := by
  rw [picked_cons h, sumOf_cons]

theorem picked_range : picked pool (List.range pool.length) = pool := by
  induction pool with
  | nil => rfl
  | cons a pool ih =>
    rw [length_cons, range_succ_eq_map, picked_cons rfl]
    congr 1
    rw [picked, filterMap_map]
    exact ih

/-- **Different positions pick a part of the pool**, no element more often than
the pool has it. -/
theorem picked_subperm (h : sel.Nodup) (hin : ∀ j ∈ sel, j < pool.length) :
    (picked pool sel).Subperm pool := by
  have hsub : sel.Subperm (range pool.length) := h.subperm fun j hj => mem_range.mpr (hin j hj)
  obtain ⟨l, hperm, hsubl⟩ := hsub
  refine ⟨picked pool l, hperm.filterMap _, ?_⟩
  have hmono : (picked pool l).Sublist (picked pool (range pool.length)) := hsubl.filterMap _
  rwa [picked_range] at hmono

/-- A stack of positions: each is below the one pushed after it and below the next to be
considered. -/
def Stacked (next : ℕ) (sel : List ℕ) : Prop := (next :: sel).Pairwise (· > ·)

theorem Stacked.nodup (h : Stacked next sel) : sel.Nodup :=
  (pairwise_cons.mp h).2.imp fun hab => (ne_of_lt hab).symm

theorem Stacked.lt {j : ℕ} (h : Stacked next sel) (hj : j ∈ sel) : j < next :=
  (pairwise_cons.mp h).1 j hj

theorem stacked_nil : Stacked next [] := pairwise_singleton _ _

theorem Stacked.push (h : Stacked i sel) : Stacked (i + 1) (i :: sel) := by
  refine pairwise_cons.mpr ⟨?_, h⟩
  intro j hj
  rcases mem_cons.mp hj with rfl | hj
  · exact Nat.lt_succ_self _
  · exact (h.lt hj).trans (Nat.lt_succ_self _)

theorem Stacked.mono {next' : ℕ} (h : Stacked next sel) (hle : next ≤ next') : Stacked next' sel :=
  pairwise_cons.mpr
    ⟨fun _ hj => (h.lt hj).trans_le hle, (pairwise_cons.mp h).2⟩

theorem Stacked.pop (h : Stacked next (i :: sel)) : Stacked i sel :=
  (pairwise_cons.mp h).2

/-! ## Flags -/

def flagged : List α → List Bool → List α
  | a :: pool, true :: flags => a :: flagged pool flags
  | _ :: pool, false :: flags => flagged pool flags
  | _, _ => []

theorem flagged_sublist (pool : List α) (flags : List Bool) :
    (flagged pool flags).Sublist pool := by
  fun_induction flagged pool flags with
  | case1 a pool flags ih => exact ih.cons_cons a
  | case2 a pool flags ih => exact ih.cons a
  | case3 => exact nil_sublist _

theorem flagged_replicate_true : flagged pool (List.replicate pool.length true) = pool := by
  induction pool with
  | nil => rfl
  | cons a pool ih => rw [length_cons, replicate_succ, flagged, ih]

theorem flagged_replicate_false (n : ℕ) : flagged pool (List.replicate n false) = [] := by
  induction pool generalizing n with
  | nil => cases n <;> rfl
  | cons a pool ih =>
    cases n with
    | zero => rfl
    | succ n => rw [replicate_succ, flagged, ih]

/-- **Setting a flag** adds its element to the sum. -/
theorem sumOf_flagged_set {flags : List Bool} (ha : pool[i]? = some a)
    (hflag : flags[i]? = some false) :
    sumOf f (flagged pool (flags.set i true)) = f a + sumOf f (flagged pool flags) := by
  induction pool generalizing i flags with
  | nil => simp at ha
  | cons b pool ih =>
    cases flags with
    | nil => simp at hflag
    | cons flag flags =>
      cases i with
      | zero =>
        obtain rfl : b = a := by simpa using ha
        obtain rfl : flag = false := by simpa using hflag
        rw [set_cons_zero, flagged, flagged, sumOf_cons]
      | succ i =>
        have hrest := ih (by simpa using ha) (by simpa using hflag)
        rw [set_cons_succ]
        cases flag with
        | true => rw [flagged, flagged, sumOf_cons, sumOf_cons]; omega
        | false => rw [flagged, flagged, hrest]

end Quarlcoin.Picking
