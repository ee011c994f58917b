import Mathlib.Analysis.Convex.Function
import Mathlib.Tactic.Linarith
/-!
# Polylines from the origin

A polyline from the origin is given by its segments, each a width and a rise; behind the
last one it goes on level. Where the slopes do not increase it is concave
(`concaveOn_height`), and below every concave function above its corners (`height_le`). Two
of them compare as their distances from the lines do (`height_le_height_iff`).
-/

namespace Quarlcoin.Diagram

open Set List

open List in
theorem prefix_append_or {α : Type*} {p g r : List α} (hp : p <+: g ++ r) :
    p <+: g ∨ ∃ q, p = g ++ q ∧ q <+: r := by
  rcases prefix_or_prefix_of_prefix hp (prefix_append g r) with h | ⟨q, rfl⟩
  · exact .inl h
  · exact .inr ⟨q, rfl, (prefix_append_right_inj g).1 hp⟩

variable {K : Type*} [Field K] {l q : List (K × K)} {s : K × K} {x k : K}

def width (l : List (K × K)) : K := (l.map Prod.fst).sum

def rise (l : List (K × K)) : K := (l.map Prod.snd).sum

@[simp] theorem width_cons : width (s :: l) = s.1 + width l := by simp [width]

@[simp] theorem rise_cons : rise (s :: l) = s.2 + rise l := by simp [rise]

@[simp] theorem width_append : width (l ++ q) = width l + width q := by simp [width]

@[simp] theorem rise_append : rise (l ++ q) = rise l + rise q := by simp [rise]

variable [LinearOrder K]

/-- The height of the polyline over `x`. -/
def height : List (K × K) → K → K
  | [], _ => 0
  | s :: rest, x => if x ≤ s.1 then s.2 / s.1 * x else s.2 + height rest (x - s.1)

theorem height_zero (h : ∀ s ∈ l, 0 < s.1) : height l 0 = 0 := by
  cases l with
  | nil => rfl
  | cons s l => rw [height, if_pos (h s (by simp)).le, mul_zero]

theorem height_cons (h : ∀ t ∈ s :: l, 0 < t.1) (hx : s.1 ≤ x) :
    height (s :: l) x = s.2 + height l (x - s.1) := by
  obtain ⟨hs, hl⟩ := forall_mem_cons.1 h
  rcases hx.eq_or_lt with rfl | hlt
  · rw [height, if_pos le_rfl, sub_self, height_zero hl, div_mul_cancel₀ _ hs.ne', add_zero]
  · rw [height, if_neg (not_le.2 hlt)]

/-- How far the segments rise above a line of slope `k`, those that do. -/
def excess (l : List (K × K)) (k : K) : K := (l.map fun s => max 0 (s.2 - k * s.1)).sum

theorem excess_cons : excess (s :: l) k = max 0 (s.2 - k * s.1) + excess l k := by simp [excess]

theorem excess_append : excess (l ++ q) k = excess l k + excess q k := by simp [excess]

variable [IsStrictOrderedRing K]

theorem width_nonneg (h : ∀ s ∈ l, 0 < s.1) : 0 ≤ width l :=
  sum_nonneg fun w hw => by
    obtain ⟨s, hs, rfl⟩ := mem_map.1 hw
    exact (h s hs).le

theorem width_pos (h : ∀ s ∈ l, 0 < s.1) (hne : l ≠ []) : 0 < width l := by
  obtain ⟨s, l, rfl⟩ := exists_cons_of_ne_nil hne
  obtain ⟨hs, hl⟩ := forall_mem_cons.1 h
  exact add_pos_of_pos_of_nonneg hs (width_nonneg hl)

/-! ## Concave polylines -/

theorem excess_nonneg : 0 ≤ excess l k :=
  sum_nonneg fun y hy => by
    obtain ⟨s, -, rfl⟩ := mem_map.1 hy
    exact le_max_left ..

section

variable (h : ∀ s ∈ l, 0 < s.1)
include h

theorem excess_eq_zero (hk : ∀ s ∈ l, s.2 / s.1 ≤ k) : excess l k = 0 := by
  refine sum_eq_zero fun y hy => ?_
  obtain ⟨s, hs, rfl⟩ := mem_map.1 hy
  exact max_eq_left (sub_nonpos.2 ((div_le_iff₀ (h s hs)).1 (hk s hs)))

/-- **No polyline is further above the line.** -/
theorem height_le_excess (k : K) (hx : 0 ≤ x) (hend : x ≤ width l ∨ 0 ≤ k) :
    height l x ≤ excess l k + k * x := by
  induction l generalizing x with
  | nil =>
    rcases hend with hend | hk
    · obtain rfl : x = 0 := le_antisymm hend hx
      simp [height, excess]
    · simpa [height, excess] using mul_nonneg hk hx
  | cons s l ih =>
    obtain ⟨hs, hl⟩ := forall_mem_cons.1 h
    have hmax := max_le_iff.1 (le_refl (max 0 (s.2 - k * s.1)))
    rw [excess_cons]
    rcases le_or_gt x s.1 with hle | hlt
    · have hrest := excess_nonneg (l := l) (k := k)
      have hrise : s.2 / s.1 * s.1 = s.2 := div_mul_cancel₀ _ hs.ne'
      rw [height, if_pos hle]
      rcases le_total (s.2 / s.1) k with hk | hk
      · linarith [mul_le_mul_of_nonneg_right hk hx]
      · linarith [mul_le_mul_of_nonneg_left hle (sub_nonneg.2 hk)]
    · rw [width_cons] at hend
      have hrest := ih hl (sub_nonneg.2 hlt.le) (hend.imp_left sub_le_iff_le_add'.2)
      rw [height_cons h hlt.le]
      linarith

section

variable (hslope : l.Pairwise fun s t => t.2 / t.1 ≤ s.2 / s.1)
include hslope

/-- **A line above the polyline** through each of its points, no steeper than the
segments. -/
theorem exists_support (hx : 0 ≤ x) (hend : x ≤ width l ∨ ∀ s ∈ l, 0 ≤ s.2) :
    ∃ k, ((∀ s ∈ l, 0 ≤ s.2) → 0 ≤ k) ∧ (∀ m, (∀ s ∈ l, s.2 / s.1 ≤ m) → (l = [] → 0 ≤ m) → k ≤ m) ∧
      excess l k + k * x ≤ height l x := by
  induction l generalizing x with
  | nil => exact ⟨0, fun _ => le_rfl, fun _ _ hm => hm rfl, by simp [excess, height]⟩
  | cons s l ih =>
    obtain ⟨hs, hl⟩ := forall_mem_cons.1 h
    obtain ⟨hfirst, hrest⟩ := pairwise_cons.1 hslope
    rcases le_or_gt x s.1 with hle | hlt
    · refine ⟨s.2 / s.1, fun hrise => div_nonneg (hrise s mem_cons_self) hs.le,
        fun m hm _ => hm s mem_cons_self, ?_⟩
      rw [excess_eq_zero h (forall_mem_cons.2 ⟨le_rfl, hfirst⟩), height, if_pos hle, zero_add]
    rw [width_cons] at hend
    have hnil : l = [] → 0 ≤ s.2 / s.1 := by
      rintro rfl
      rcases hend with hend | hrise
      · exact absurd hlt (not_lt.2 (by simpa [width] using hend))
      · exact div_nonneg (hrise s mem_cons_self) hs.le
    obtain ⟨k, hk, hleast, hexcess⟩ := ih hl hrest (sub_nonneg.2 hlt.le)
      (hend.imp sub_le_iff_le_add'.2 fun hrise => (forall_mem_cons.1 hrise).2)
    refine ⟨k, fun hrise => hk (forall_mem_cons.1 hrise).2,
      fun m hm _ => hleast m (forall_mem_cons.1 hm).2
        fun hl => (hnil hl).trans (hm s mem_cons_self), ?_⟩
    have hsteep := (le_div_iff₀ hs).1 (hleast _ hfirst hnil)
    rw [excess_cons, max_eq_right (sub_nonneg.2 hsteep), height_cons h hlt.le]
    linarith

/-- The line touches the polyline behind the segments that are steeper. -/
theorem exists_touch (k : K) : ∃ x, 0 ≤ x ∧ excess l k + k * x ≤ height l x := by
  induction l with
  | nil => exact ⟨0, le_rfl, by simp [excess, height]⟩
  | cons s l ih =>
    obtain ⟨hs, hl⟩ := forall_mem_cons.1 h
    obtain ⟨hfirst, hrest⟩ := pairwise_cons.1 hslope
    rcases le_total (s.2 / s.1) k with hk | hk
    · refine ⟨0, le_rfl, ?_⟩
      rw [excess_eq_zero h (forall_mem_cons.2 ⟨hk, fun t ht => (hfirst t ht).trans hk⟩),
        height_zero h, mul_zero, zero_add]
    obtain ⟨x, hx, htouch⟩ := ih hl hrest
    refine ⟨s.1 + x, add_nonneg hs.le hx, ?_⟩
    rw [excess_cons, max_eq_right (sub_nonneg.2 ((le_div_iff₀ hs).1 hk)),
      height_cons h (le_add_of_nonneg_right hx), add_sub_cancel_left]
    linarith

/-- **A polyline is below another** if the lines of no falling slope tell so. -/
theorem height_le_height_iff (hq : ∀ s ∈ q, 0 < s.1) (hrise : ∀ s ∈ q, 0 ≤ s.2)
    (hslope' : q.Pairwise fun s t => t.2 / t.1 ≤ s.2 / s.1) :
    (∀ x, 0 ≤ x → height l x ≤ height q x) ↔ ∀ k, 0 ≤ k → excess l k ≤ excess q k := by
  refine ⟨fun hle k hk => ?_, fun hle x hx => ?_⟩
  · obtain ⟨x, hx, htouch⟩ := exists_touch h hslope k
    linarith [hle x hx, height_le_excess hq k hx (.inr hk)]
  · obtain ⟨k, hk, -, hsupport⟩ := exists_support hq hslope' hx (.inr hrise)
    linarith [hle k (hk hrise), height_le_excess h k hx (.inr (hk hrise))]

/-- **Falling slopes make a concave polyline.** -/
theorem concaveOn_height : ConcaveOn K (Icc 0 (width l)) (height l) := by
  refine ⟨convex_Icc .., fun x hx y hy a b ha hb hab => ?_⟩
  obtain ⟨hz, hz'⟩ := convex_Icc 0 (width l) hx hy ha hb hab
  obtain ⟨k, -, -, hsupport⟩ := exists_support h hslope hz (.inl hz')
  have hleft := mul_le_mul_of_nonneg_left (height_le_excess h k hx.1 (.inl hx.2)) ha
  have hright := mul_le_mul_of_nonneg_left (height_le_excess h k hy.1 (.inl hy.2)) hb
  simp only [smul_eq_mul] at hsupport ⊢
  linear_combination hleft + hright + hsupport + excess l k * hab

end

/-- **The least concave function above the corners** is the polyline. -/
theorem height_le {f : K → K} {a b : K} (hf : ConcaveOn K (Icc a (a + width l)) f)
    (hcorner : ∀ p, p <+: l → b + rise p ≤ f (a + width p)) (hx : x ∈ Icc a (a + width l)) :
    b + height l (x - a) ≤ f x := by
  induction l generalizing a b with
  | nil =>
    obtain rfl : x = a := by simpa [width] using hx
    simpa [height, rise, width] using hcorner [] prefix_rfl
  | cons s l ih =>
    obtain ⟨hs, hl⟩ := forall_mem_cons.1 h
    have hwidth := width_nonneg hl
    rw [width_cons] at hf hx
    have hnext : ∀ p, p <+: l → b + s.2 + rise p ≤ f (a + s.1 + width p) := fun p hp => by
      simpa [add_assoc] using hcorner (s :: p) (cons_prefix_cons.2 ⟨rfl, hp⟩)
    rcases le_or_gt (x - a) s.1 with hle | hlt
    · -- between two corners the function is above the chord
      have hstart := hcorner [] nil_prefix
      have hend := hnext [] nil_prefix
      simp only [rise, width, map_nil, sum_nil, add_zero] at hstart hend
      have ht : 0 ≤ (x - a) / s.1 := div_nonneg (by linarith [hx.1]) hs.le
      have ht' : 0 ≤ 1 - (x - a) / s.1 := sub_nonneg.2 ((div_le_one hs).2 hle)
      have hchord := hf.2 (y := a + s.1) ⟨le_rfl, by linarith⟩
        ⟨by linarith, by linarith⟩ ht' ht (by ring)
      have hpoint : (x - a) / s.1 * s.1 = x - a := div_mul_cancel₀ _ hs.ne'
      rw [smul_eq_mul, smul_eq_mul, smul_eq_mul, smul_eq_mul,
        show (1 - (x - a) / s.1) * a + (x - a) / s.1 * (a + s.1) = x by
          linear_combination hpoint] at hchord
      rw [height, if_pos hle, show s.2 / s.1 * (x - a) = (x - a) / s.1 * s.2 by ring]
      linear_combination hchord + mul_le_mul_of_nonneg_left hstart ht' +
        mul_le_mul_of_nonneg_left hend ht
    · rw [height_cons h hlt.le, ← add_assoc, sub_sub]
      rw [← add_assoc] at hf hx
      exact ih hl (hf.subset (Icc_subset_Icc_left (by linarith)) (convex_Icc ..)) hnext
        ⟨by linarith, hx.2⟩

end

/-! ## Groups -/

/-- No part from the left rises faster than the whole. -/
def Below (g : List (K × K)) : Prop := ∀ p, p <+: g → rise p * width g ≤ rise g * width p

/-- **Groups of rising slopes are merged.** -/
theorem Below.append {g r : List (K × K)} (hg : Below g) (hr : Below r)
    (hgpos : ∀ s ∈ g, 0 < s.1) (hrpos : ∀ s ∈ r, 0 < s.1) (hgne : g ≠ []) (hrne : r ≠ [])
    (hslope : rise g * width r ≤ rise r * width g) : Below (g ++ r) := by
  intro p hp
  have hgw := width_pos hgpos hgne
  have hrw := width_pos hrpos hrne
  rw [width_append, rise_append]
  rcases prefix_append_or hp with hp | ⟨q, rfl, hq⟩
  · have hpw := width_nonneg fun s hs => hgpos s (hp.subset hs)
    refine le_of_mul_le_mul_left ?_ hgw
    linear_combination mul_le_mul_of_nonneg_right (hg p hp) (add_pos hgw hrw).le +
      mul_le_mul_of_nonneg_right hslope hpw
  obtain ⟨t, rfl⟩ := hq
  have hqw : 0 ≤ width t := width_nonneg fun s hs => hrpos s (by simp [hs])
  refine le_of_mul_le_mul_left ?_ hrw
  have hpart := mul_le_mul_of_nonneg_right (hr q (prefix_append q t)) (add_pos hgw hrw).le
  have hrest := mul_le_mul_of_nonneg_right hslope hqw
  simp only [width_append, rise_append] at hpart hrest ⊢
  linear_combination hpart + hrest

/-- **The polyline of the groups is above the segments.** -/
theorem rise_le_height {gs : List (List (K × K))} (h : ∀ g ∈ gs, ∀ s ∈ g, 0 < s.1)
    (hne : ∀ g ∈ gs, g ≠ []) (hg : ∀ g ∈ gs, Below g) {p : List (K × K)} (hp : p <+: gs.flatten) :
    rise p ≤ height (gs.map fun g => (width g, rise g)) (width p) := by
  induction gs generalizing p with
  | nil =>
    obtain rfl := prefix_nil.1 hp
    simp [rise, height]
  | cons g gs ih =>
    obtain ⟨hpos, hpos'⟩ := forall_mem_cons.1 h
    obtain ⟨hneg, hne'⟩ := forall_mem_cons.1 hne
    have hwg := width_pos hpos hneg
    have hw' := fun g hg => width_pos (hpos' g hg) (hne' g hg)
    obtain ⟨hbelow, hg'⟩ := forall_mem_cons.1 hg
    rw [map_cons]
    rcases prefix_append_or hp with ⟨t, rfl⟩ | ⟨q, rfl, hq⟩
    · have hpart := hbelow p (prefix_append p t)
      have ht := width_nonneg fun s hs => hpos s (mem_append_right p hs)
      have hle : width p ≤ width (p ++ t) := by simpa using ht
      rw [height, if_pos hle, div_mul_eq_mul_div, le_div_iff₀ hwg]
      exact hpart
    · have hrest := ih hpos' hne' hg' hq
      have hq' := width_nonneg fun s hs => by
        obtain ⟨g, hg, hs⟩ := mem_flatten.1 (hq.subset hs)
        exact hpos' g hg s hs
      rw [width_append, rise_append,
        height_cons (by simpa [hwg] using hw') (le_add_of_nonneg_right hq'), add_sub_cancel_left]
      exact add_le_add_right hrest _

end Quarlcoin.Diagram
