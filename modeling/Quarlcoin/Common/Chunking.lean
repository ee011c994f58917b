import Mathlib.Data.List.Chain
import Mathlib.Data.List.Nodup
/-!
# Grouping a list by absorbing

A list of pieces is read from the left. A new piece absorbs the last group for as long as it
ranks above that group, and becomes the last group. So the groups are the pieces in their
order, and no group ranks above the one before it.
-/

namespace Quarlcoin.Chunking

open List

variable {σ α : Type*} (above : σ → σ → Bool) (merge : σ → σ → σ)

/-- One new piece enters; the last group comes first, and `merge` is given the earlier group
first. -/
def absorb (piece : σ) : List σ → List σ
  | [] => [piece]
  | last :: groups =>
    if above piece last then absorb (merge last piece) groups else piece :: last :: groups

/-- The groups of a list of pieces, in order. -/
def chunk (pieces : List σ) : List σ :=
  (pieces.foldl (fun groups piece => absorb above merge piece groups) []).reverse

/-- Where nothing is in two groups, a common element tells the groups equal. -/
theorem eq_of_mem_content {content : σ → List α} {groups : List σ}
    (hnodup : (groups.flatMap content).Nodup) {g h : σ} (hg : g ∈ groups) (hh : h ∈ groups) {a : α}
    (hag : a ∈ content g) (hah : a ∈ content h) : g = h := by
  by_contra hne
  have hsymm : Std.Symm (Function.onFun List.Disjoint content) := ⟨fun _ _ h _ ha hb => h hb ha⟩
  exact (nodup_flatMap.1 hnodup).2.forall hg hh hne hag hah

section Content

variable {merge} (content : σ → List α)
  (hcontent : ∀ a b, content (merge a b) = content a ++ content b)
include hcontent

theorem flatMap_reverse_absorb (piece : σ) (groups : List σ) :
    (absorb above merge piece groups).reverse.flatMap content =
      groups.reverse.flatMap content ++ content piece := by
  induction groups generalizing piece with
  | nil => simp [absorb]
  | cons last groups ih =>
    rw [absorb]
    split
    · rw [ih, hcontent]
      simp
    · simp

/-- **Grouping keeps every piece in its place.** -/
theorem flatMap_chunk (pieces : List σ) :
    (chunk above merge pieces).flatMap content = pieces.flatMap content := by
  suffices h : ∀ groups : List σ,
      (pieces.foldl (fun groups piece => absorb above merge piece groups) groups).reverse.flatMap
        content = groups.reverse.flatMap content ++ pieces.flatMap content by
    simpa [chunk] using h []
  induction pieces with
  | nil => simp
  | cons piece pieces ih =>
    intro groups
    rw [foldl_cons, ih, flatMap_reverse_absorb above content hcontent, flatMap_cons, append_assoc]

end Content

section Groups

variable {above merge} {P : σ → Prop} (hmerge : ∀ a b, above b a = true → P a → P b → P (merge a b))
include hmerge

theorem forall_absorb {piece : σ} {groups : List σ} (hpiece : P piece) (h : ∀ g ∈ groups, P g) :
    ∀ g ∈ absorb above merge piece groups, P g := by
  induction groups generalizing piece with
  | nil => simpa [absorb] using hpiece
  | cons last groups ih =>
    rw [absorb]
    have hlast := h last (.head _)
    have hgroups := fun g hg => h g (.tail _ hg)
    split
    · next habove => exact ih (hmerge _ _ habove hlast hpiece) hgroups
    · intro g hg
      rcases mem_cons.1 hg with rfl | hg
      · exact hpiece
      · exact h g hg

/-- What holds of the pieces and is kept by merging holds of the groups. -/
theorem forall_chunk {pieces : List σ} (h : ∀ p ∈ pieces, P p) :
    ∀ g ∈ chunk above merge pieces, P g := by
  suffices hfold : ∀ groups : List σ, (∀ g ∈ groups, P g) →
      ∀ g ∈ pieces.foldl (fun groups piece => absorb above merge piece groups) groups, P g by
    intro g hg
    exact hfold [] (by simp) g (mem_reverse.1 hg)
  induction pieces with
  | nil => exact fun groups hgroups => hgroups
  | cons piece pieces ih =>
    intro groups hgroups
    exact ih (fun p hp => h p (.tail _ hp)) _
      (forall_absorb hmerge (h piece (.head _)) hgroups)

end Groups

theorem map_chunk {σ' : Type*} {above' : σ' → σ' → Bool} {merge' : σ' → σ' → σ'} (f : σ → σ')
    (habove : ∀ a b, above' (f a) (f b) = above a b)
    (hmerge : ∀ a b, f (merge a b) = merge' (f a) (f b)) (pieces : List σ) :
    (chunk above merge pieces).map f = chunk above' merge' (pieces.map f) := by
  have habsorb : ∀ (groups : List σ) (piece : σ), (absorb above merge piece groups).map f =
      absorb above' merge' (f piece) (groups.map f) := by
    intro groups
    induction groups with
    | nil => exact fun piece => rfl
    | cons last groups ih =>
      intro piece
      rw [absorb, map_cons, absorb, habove]
      split
      · rw [ih, hmerge]
      · rfl
  rw [chunk, chunk, map_reverse, foldl_map]
  congr 1
  exact (foldl_hom (map f) fun groups piece => (habsorb groups piece).symm).symm

section Congr

variable {above merge} {content : σ → List α} {P : σ → Prop} {merge' : σ → σ → σ} {L : List α}
  (hcontent : ∀ a b, content (merge a b) = content a ++ content b)
  (hmerge : ∀ a b, above b a = true → P a → P b → P (merge a b))
  (h : ∀ a b, P a → P b → content a ++ content b <:+: L → merge' a b = merge a b)
include hcontent hmerge h

theorem absorb_congr {piece : σ} {groups : List σ} (hpiece : P piece) (hgroups : ∀ g ∈ groups, P g)
    (hL : groups.reverse.flatMap content ++ content piece <:+: L) :
    absorb above merge' piece groups = absorb above merge piece groups := by
  induction groups generalizing piece with
  | nil => rfl
  | cons last groups ih =>
    obtain ⟨hlast, hgroups⟩ := forall_mem_cons.1 hgroups
    have hsplit : (last :: groups).reverse.flatMap content ++ content piece =
        groups.reverse.flatMap content ++ (content last ++ content piece) := by simp
    rw [hsplit] at hL
    rw [absorb, absorb]
    split
    · next habove =>
      rw [h last piece hlast hpiece ((suffix_append _ _).isInfix.trans hL)]
      exact ih (hmerge _ _ habove hlast hpiece) hgroups (by rwa [hcontent])
    · rfl

/-- **Groups are merged in place**: two ways to merge that agree on what stands side by side
give the same groups. -/
theorem chunk_congr {pieces : List σ} (hpieces : ∀ p ∈ pieces, P p)
    (hL : pieces.flatMap content = L) : chunk above merge' pieces = chunk above merge pieces := by
  suffices hfold : ∀ groups : List σ, (∀ g ∈ groups, P g) →
      groups.reverse.flatMap content ++ pieces.flatMap content = L →
      pieces.foldl (fun groups piece => absorb above merge' piece groups) groups =
        pieces.foldl (fun groups piece => absorb above merge piece groups) groups by
    rw [chunk, chunk, hfold [] (by simp) (by simpa using hL)]
  clear hL
  induction pieces with
  | nil => exact fun _ _ _ => rfl
  | cons piece pieces ih =>
    intro groups hgroups hL
    obtain ⟨hpiece, hpieces⟩ := forall_mem_cons.1 hpieces
    have hflat : groups.reverse.flatMap content ++ content piece ++ pieces.flatMap content = L := by
      rw [← hL, flatMap_cons, append_assoc]
    have hin : groups.reverse.flatMap content ++ content piece <:+: L :=
      hflat ▸ (prefix_append _ _).isInfix
    rw [foldl_cons, foldl_cons, absorb_congr hcontent hmerge h hpiece hgroups hin]
    exact ih hpieces _ (forall_absorb hmerge hpiece hgroups)
      (by rw [flatMap_reverse_absorb above content hcontent, hflat])

end Congr

theorem isChain_absorb (piece : σ) {groups : List σ}
    (h : groups.IsChain fun later earlier => ¬above later earlier) :
    (absorb above merge piece groups).IsChain fun later earlier => ¬above later earlier := by
  induction groups generalizing piece with
  | nil => exact .singleton _
  | cons last groups ih =>
    rw [absorb]
    split
    · exact ih _ h.tail
    · next hnot => exact .cons_cons hnot h

/-- **No group ranks above the one before it.** -/
theorem isChain_chunk (pieces : List σ) :
    (chunk above merge pieces).IsChain fun earlier later => ¬above later earlier := by
  suffices h : ∀ groups : List σ, (groups.IsChain fun later earlier => ¬above later earlier) →
      (pieces.foldl (fun groups piece => absorb above merge piece groups) groups).IsChain
        fun later earlier => ¬above later earlier by
    exact isChain_reverse.2 (h [] .nil)
  induction pieces with
  | nil => exact fun groups hgroups => hgroups
  | cons piece pieces ih =>
    intro groups hgroups
    exact ih _ (isChain_absorb above merge piece hgroups)

end Quarlcoin.Chunking
