import Mathlib.Data.List.Perm.Subperm
/-!
# What can be reached in a finite graph

A search keeps the nodes it has visited and the nodes that wait; it visits a waiting node
and lets its successors wait. As many visits as there are nodes are enough.
-/

namespace Quarlcoin.Reach

open List

variable {α : Type*} (next : α → List α)

/-- `b` can be reached from `a`. -/
def Reaches : α → α → Prop := Relation.ReflTransGen fun a b => b ∈ next a

/-- A list of nodes that no step leaves. -/
def Closed (S : List α) : Prop := ∀ a ∈ S, ∀ b ∈ next a, b ∈ S

variable {next : α → List α} {S U work seen : List α} {a b : α} {n : ℕ}

theorem Reaches.mem_of_closed (h : Reaches next a b) (hS : Closed next S) (ha : a ∈ S) : b ∈ S := by
  induction h with
  | refl => exact ha
  | tail _ hstep ih => exact hS _ ih _ hstep

theorem Reaches.congr {next' : α → List α} (h : Reaches next a b)
    (hnext : ∀ c d, Reaches next a c → d ∈ next c → d ∈ next' c) : Reaches next' a b := by
  induction h with
  | refl => exact .refl
  | tail hac hstep ih => exact ih.tail (hnext _ _ hac hstep)

/-! ## The search -/

section

variable [DecidableEq α]

/-- The search, for a number of visits: what it has visited at the end. -/
def visit (next : α → List α) : ℕ → List α → List α → List α
  | 0, _, seen => seen
  | _ + 1, [], seen => seen
  | n + 1, a :: work, seen => visit next n ((work ++ next a).filter (· ∉ a :: seen)) (a :: seen)

/-- A search in progress: a successor of a visited node is visited or waits, and no visited node
waits. -/
structure Searching (next : α → List α) (U work seen : List α) : Prop where
  nodup : seen.Nodup
  seen_subset : seen ⊆ U
  work_subset : work ⊆ U
  fresh : ∀ a ∈ work, a ∉ seen
  next_mem : ∀ a ∈ seen, ∀ b ∈ next a, b ∈ seen ∨ b ∈ work

omit [DecidableEq α] in
theorem Searching.start (h : S ⊆ U) : Searching next U S [] where
  nodup := .nil
  seen_subset := nil_subset U
  work_subset := h
  fresh := fun _ _ => not_mem_nil
  next_mem := by simp

/-- **One visit.** -/
theorem Searching.visit_one (hU : Closed next U) (h : Searching next U (a :: work) seen) :
    Searching next U ((work ++ next a).filter (· ∉ a :: seen)) (a :: seen) where
  nodup := nodup_cons.2 ⟨h.fresh a mem_cons_self, h.nodup⟩
  seen_subset := cons_subset.2 ⟨h.work_subset mem_cons_self, h.seen_subset⟩
  work_subset := by
    intro b hb
    rcases mem_append.1 (mem_of_mem_filter hb) with hb | hb
    · exact h.work_subset (mem_cons_of_mem a hb)
    · exact hU a (h.work_subset mem_cons_self) b hb
  fresh := fun b hb => by simpa using (mem_filter.1 hb).2
  next_mem := by
    intro b hb c hc
    by_cases hseen : c ∈ a :: seen
    · exact .inl hseen
    right
    refine mem_filter.2 ⟨mem_append.2 ?_, by simpa using hseen⟩
    rcases mem_cons.1 hb with rfl | hb
    · exact .inr hc
    rcases h.next_mem b hb c hc with hc | hc
    · exact absurd (mem_cons_of_mem a hc) hseen
    · rcases mem_cons.1 hc with rfl | hc
      · exact absurd mem_cons_self hseen
      · exact .inl hc

/-- **A whole search** visits everything once, and no step leaves what it has visited. -/
theorem Searching.visit_spec (hU : Closed next U) (h : Searching next U work seen)
    (hn : U.length ≤ n + seen.length) :
    (visit next n work seen).Nodup ∧ Closed next (visit next n work seen) ∧
      seen ⊆ visit next n work seen ∧ work ⊆ visit next n work seen := by
  induction n generalizing work seen with
  | zero =>
    -- everything there is has been visited
    have hperm : seen.Perm U :=
      (subperm_of_subset h.nodup h.seen_subset).perm_of_length_le (by omega)
    refine ⟨h.nodup, fun a ha b hb => hperm.mem_iff.2 (hU a (h.seen_subset ha) b hb),
      List.Subset.refl _, fun a ha => hperm.mem_iff.2 (h.work_subset ha)⟩
  | succ n ih =>
    cases work with
    | nil =>
      refine ⟨h.nodup, fun a ha b hb => ?_, List.Subset.refl _, nil_subset _⟩
      rcases h.next_mem a ha b hb with hb | hb
      · exact hb
      · exact absurd hb not_mem_nil
    | cons a work =>
      have hlen : U.length ≤ n + (a :: seen).length := by
        rw [length_cons]
        omega
      obtain ⟨hnodup, hclosed, hseen, hwork⟩ := ih (h.visit_one hU) hlen
      refine ⟨hnodup, hclosed, fun b hb => hseen (mem_cons_of_mem a hb), fun b hb => ?_⟩
      by_cases hb' : b ∈ a :: seen
      · exact hseen hb'
      · have hbwork : b ∈ work := (mem_cons.1 hb).resolve_left fun hba =>
          hb' (hba ▸ mem_cons_self)
        exact hwork (mem_filter.2 ⟨mem_append_left _ hbwork, by simpa using hb'⟩)

theorem exists_reaches_of_mem_visit (h : b ∈ visit next n work seen) :
    b ∈ seen ∨ ∃ a ∈ work, Reaches next a b := by
  induction n generalizing work seen with
  | zero => exact .inl h
  | succ n ih =>
    cases work with
    | nil => exact .inl h
    | cons a work =>
      rcases ih h with hb | ⟨c, hc, hcb⟩
      · rcases mem_cons.1 hb with rfl | hb
        · exact .inr ⟨b, mem_cons_self, .refl⟩
        · exact .inl hb
      · rcases mem_append.1 (mem_of_mem_filter hc) with hc | hc
        · exact .inr ⟨c, mem_cons_of_mem a hc, hcb⟩
        · exact .inr ⟨a, mem_cons_self, Relation.ReflTransGen.head hc hcb⟩

/-- **The search finds what can be reached.** -/
theorem mem_visit_iff (hU : Closed next U) (h : S ⊆ U) (hn : U.length ≤ n) :
    b ∈ visit next n S [] ↔ ∃ a ∈ S, Reaches next a b := by
  constructor
  · intro hb
    exact (exists_reaches_of_mem_visit hb).resolve_left not_mem_nil
  · rintro ⟨a, ha, hab⟩
    obtain ⟨-, hclosed, -, hwork⟩ := (Searching.start h).visit_spec hU hn
    exact hab.mem_of_closed hclosed (hwork ha)

theorem nodup_visit (hU : Closed next U) (h : S ⊆ U) (hn : U.length ≤ n) :
    (visit next n S []).Nodup :=
  ((Searching.start h).visit_spec hU hn).1

end

/-! ## Without a part of the graph -/

section

variable {next' : α → List α}

/-- **A part that no step leaves is taken away**: what remains reaches what it
reached before, but for that part. -/
theorem reaches_sdiff_iff (hS : Closed next S)
    (hnext : ∀ a b, a ∉ S → (b ∈ next' a ↔ b ∈ next a ∧ b ∉ S)) (ha : a ∉ S) :
    Reaches next' a b ↔ Reaches next a b ∧ b ∉ S := by
  constructor
  · intro h
    induction h with
    | refl => exact ⟨.refl, ha⟩
    | tail _ hstep ih =>
      obtain ⟨hstep, hb⟩ := (hnext _ _ ih.2).1 hstep
      exact ⟨ih.1.tail hstep, hb⟩
  · rintro ⟨h, hb⟩
    induction h with
    | refl => exact .refl
    | tail hac hstep ih =>
      -- a step from the part would lead into it
      have hc := fun hc => hb (hS _ hc _ hstep)
      exact (ih hc).tail ((hnext _ _ hc).2 ⟨hstep, hb⟩)

/-- **The way back.** -/
theorem Reaches.swap (h : Reaches next a b)
    (hswap : ∀ c d, Reaches next a c → d ∈ next c → c ∈ next' d) : Reaches next' b a := by
  induction h with
  | refl => exact .refl
  | tail hac hstep ih => exact Relation.ReflTransGen.head (hswap _ _ hac hstep) ih

end

end Quarlcoin.Reach
