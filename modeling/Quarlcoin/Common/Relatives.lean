import Mathlib.Data.List.Perm.Basic
import Mathlib.Data.List.Nodup
/-!
# Graphs of small families

In a graph where nodes of one kind have at most one ancestor and at most one descendant, new
nodes are attached. What has to be looked at is the new edges only (`Attached.fewAbove`,
`Attached.fewBelow`).
-/

namespace Quarlcoin.Relatives

open Relation List

variable {α : Type*} (E : α → α → Prop) (t : α)

/-- At most one node but `t` leads to `t`. -/
def FewAbove : Prop :=
  ∀ a b, ReflTransGen E a t → ReflTransGen E b t → a ≠ t → b ≠ t → a = b

/-- `t` leads to at most one node but `t`. -/
def FewBelow : Prop :=
  ∀ a b, ReflTransGen E t a → ReflTransGen E t b → a ≠ t → b ≠ t → a = b

variable {E E' : α → α → Prop} {N V : α → Prop} {a b t x y : α}

theorem FewAbove.mono (h : FewAbove E t) (hE : ∀ a b, E' a b → E a b) : FewAbove E' t :=
  fun a b ha hb => h a b (ReflTransGen.mono hE _ _ ha) (ReflTransGen.mono hE _ _ hb)

theorem FewBelow.mono (h : FewBelow E t) (hE : ∀ a b, E' a b → E a b) : FewBelow E' t :=
  fun a b ha hb => h a b (ReflTransGen.mono hE _ _ ha) (ReflTransGen.mono hE _ _ hb)

/-! ## Attaching new nodes -/

/-- **New nodes `N` are below old ones**; `E` are the old edges and `E'` all edges. -/
structure Below (E E' : α → α → Prop) (N : α → Prop) : Prop where
  /-- Old edges lead from old nodes. -/
  old_left : ∀ x y, E x y → ¬N x
  /-- Edges to old nodes are old. -/
  old_edge : ∀ x y, E' x y → ¬N y → E x y

theorem Below.old_path (h : Below E E' N) (ht : ¬N t) (ha : ReflTransGen E' a t) :
    ReflTransGen E a t := by
  induction ha with
  | refl => exact .refl
  | tail _ hstep ih =>
    have hold := h.old_edge _ _ hstep ht
    exact (ih (h.old_left _ _ hold)).tail hold

/-- **New nodes are attached**: of a new node of the kind `V`, the parent is the only
one and has no ancestors, and the node is all that descends from it. -/
structure Attached (E E' : α → α → Prop) (N V : α → Prop) : Prop extends Below E E' N where
  /-- Edges stay inside the kind. -/
  kind : ∀ x y, E' x y → (V x ↔ V y)
  parent_unique : ∀ x x' y, N y → V y → E' x y → E' x' y → x = x'
  parent_top : ∀ x y, N y → V y → E' x y → ∀ a, ReflTransGen E' a x → a = x
  child_unique : ∀ x y y', N y → N y' → V y → E' x y → E' x y' → y = y'
  parent_bare : ∀ x y, N y → V y → E' x y → ∀ b, ReflTransGen E x b → b = x

namespace Attached

variable (h : Attached E E' N V)
include h

theorem kind_path (hb : ReflTransGen E' a b) : V a ↔ V b := by
  induction hb with
  | refl => exact Iff.rfl
  | tail _ hstep ih => exact ih.trans (h.kind _ _ hstep)

theorem edge_of_path (ht : N t) (hV : V t) (ha : ReflTransGen E' a t) (hne : a ≠ t) : E' a t := by
  rcases ha.cases_tail with rfl | ⟨c, hac, hct⟩
  · exact absurd rfl hne
  · rw [h.parent_top c t ht hV hct a hac]
    exact hct

theorem fewAbove (hE : ¬N t → FewAbove E t) (hV : V t) : FewAbove E' t := by
  intro a b ha hb hat hbt
  by_cases ht : N t
  · exact h.parent_unique a b t ht hV (h.edge_of_path ht hV ha hat) (h.edge_of_path ht hV hb hbt)
  · exact hE ht a b (h.old_path ht ha) (h.old_path ht hb) hat hbt

theorem eq_of_new (hV : V t) (ha : ReflTransGen E' t a) (hb : ReflTransGen E' t b) (hat : a ≠ t)
    (hbt : b ≠ t) (hN : N a) : a = b := by
  have hVa := (h.kind_path ha).1 hV
  have hedge := h.edge_of_path hN hVa ha hat.symm
  by_cases hNb : N b
  · have hVb := (h.kind_path hb).1 hV
    exact h.child_unique t a b hN hNb hVa hedge (h.edge_of_path hNb hVb hb hbt.symm)
  · exact absurd (h.parent_bare t a hN hVa hedge b (h.old_path hNb hb)) hbt

theorem fewBelow (hE : ¬N t → FewBelow E t) (hV : V t) : FewBelow E' t := by
  intro a b ha hb hat hbt
  by_cases hNa : N a
  · exact h.eq_of_new hV ha hb hat hbt hNa
  by_cases hNb : N b
  · exact (h.eq_of_new hV hb ha hbt hat hNb).symm
  · -- both are old, and so is what they descend from
    have hold := h.old_path hNa ha
    have ht : ¬N t := by
      rcases hold.cases_head with rfl | ⟨c, htc, -⟩
      · exact absurd rfl hat
      · exact h.old_left t c htc
    exact hE ht a b hold (h.old_path hNb hb) hat hbt

end Attached

/-! ## Counting -/

section

variable {l : List α}

theorem eq_of_length_le_one (h : l.length ≤ 1) (ha : a ∈ l) (hb : b ∈ l) : a = b := by
  rcases l with - | ⟨x, - | ⟨y, l⟩⟩
  · cases ha
  · rw [mem_singleton.1 ha, mem_singleton.1 hb]
  · simp only [length_cons] at h
    omega

theorem length_le_one_iff (hnodup : l.Nodup) : l.length ≤ 1 ↔ ∀ a ∈ l, ∀ b ∈ l, a = b := by
  refine ⟨fun h a ha b hb => eq_of_length_le_one h ha hb, fun hall => ?_⟩
  rcases l with - | ⟨x, - | ⟨y, l⟩⟩
  · simp
  · simp
  · have hxy : x = y := hall x (by simp) y (by simp)
    simp [hxy] at hnodup

theorem length_le_two_iff (hnodup : l.Nodup) (ht : t ∈ l) :
    l.length ≤ 2 ↔ ∀ a ∈ l, ∀ b ∈ l, a ≠ t → b ≠ t → a = b := by
  classical
  have hperm := perm_cons_erase ht
  have hlen : l.length = (l.erase t).length + 1 := hperm.length_eq
  have hmem : ∀ a, a ∈ l.erase t ↔ a ≠ t ∧ a ∈ l := fun a => hnodup.mem_erase_iff
  have hone := length_le_one_iff (hnodup.erase t)
  simp only [hmem] at hone
  constructor
  · intro hle a ha b hb hat hbt
    exact hone.1 (by omega) a ⟨hat, ha⟩ b ⟨hbt, hb⟩
  · intro hall
    have := hone.2 fun a ha b hb => hall a ha.2 b hb.2 ha.1 hb.1
    omega

end

end Quarlcoin.Relatives
