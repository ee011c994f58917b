import Mathlib.Data.Real.Basic
import Quarlcoin.Common.Diagram
import Quarlcoin.TxGraph.Changes
/-!
# Feerate diagrams

The diagram of chunks is their cumulative fee over their cumulative size. The chunks of a
linearization have the least concave diagram above its prefixes (`chunkLinearization_hull`).
`CompareChunks` (`util/feefrac.cpp`) compares two diagrams at their corners, which tells how
they compare everywhere as long as no difference of fees overflows (`compareChunks_exact`).
A replacement is judged on the clusters that it changes (`compareChunks_common`).
-/

namespace Quarlcoin.TxGraph

open Chunking Diagram Set Function List

/-- A feerate as a segment of a diagram. -/
def segment (f : FeeFrac) : ℝ × ℝ := (f.size, f.fee)

/-- The cumulative fee over the cumulative size, level behind the last chunk. -/
noncomputable def diagram (chunks : List FeeFrac) : ℝ → ℝ := height (chunks.map segment)

theorem segment_pos {l : List FeeFrac} (h : ∀ f ∈ l, 0 < f.size) :
    ∀ s ∈ l.map segment, 0 < s.1 := by
  intro s hs
  obtain ⟨f, hf, rfl⟩ := mem_map.1 hs
  exact Int.cast_pos.2 (h f hf)

theorem pairwise_segment {l : List FeeFrac} (h : l.Pairwise fun a b => b.ratio ≤ a.ratio) :
    (l.map segment).Pairwise fun s t => t.2 / t.1 ≤ s.2 / s.1 :=
  pairwise_map.2 <| h.imp fun hle => by
    simpa [segment, FeeFrac.ratio] using (Rat.cast_le (K := ℝ)).2 hle

/-! ## The hull of a linearization -/

variable {τ : Type*} {feerate : τ → FeeFrac} {linearization : List τ}

def chunkLinearization (feerate : τ → FeeFrac) (linearization : List τ) : List FeeFrac :=
  chunk (fun new last => byRatio new last == .gt) addFeerate (linearization.map feerate)

def sumFeerate (feerate : τ → FeeFrac) (l : List τ) : FeeFrac :=
  ⟨(l.map fun t => (feerate t).fee).sum, (l.map fun t => (feerate t).size).sum⟩

/-- The concave functions above every prefix of a linearization. -/
def Above (feerate : τ → FeeFrac) (linearization : List τ) : Set (ℝ → ℝ) :=
  {f | ConcaveOn ℝ (Icc 0 ((sumFeerate feerate linearization).size : ℝ)) f ∧
    ∀ p, p <+: linearization → (sumFeerate feerate p).fee ≤ f (sumFeerate feerate p).size}

def segments (feerate : τ → FeeFrac) (l : List τ) : List (ℝ × ℝ) := l.map (segment ∘ feerate)

theorem sumFeerate_cast (l : List τ) : ((sumFeerate feerate l).size : ℝ) = width
    (segments feerate l) ∧ ((sumFeerate feerate l).fee : ℝ) = rise (segments feerate l) := by
  constructor <;> simp [sumFeerate, segments, width, rise, segment, comp_def]

/-- **A chunk is above its parts.** -/
structure Chunked (feerate : τ → FeeFrac) (c : SetInfo τ) : Prop where
  sum : c.feerate = sumFeerate feerate c.transactions
  pos : ∀ s ∈ segments feerate c.transactions, 0 < s.1
  below : Below (segments feerate c.transactions)

theorem Chunked.union {a b : SetInfo τ} (ha : Chunked feerate a) (hb : Chunked feerate b)
    (habove : (byRatio b.feerate a.feerate == .gt) = true) : Chunked feerate (a.union b) where
  sum := by simp [SetInfo.union, addFeerate, sumFeerate, ha.sum, hb.sum]
  pos := by
    rw [SetInfo.union, segments, map_append]
    exact forall_mem_append.2 ⟨ha.pos, hb.pos⟩
  below := by
    rw [SetInfo.union, segments, map_append]
    refine ha.below.append hb.below ha.pos hb.pos (by simpa [segments] using a.nonempty)
      (by simpa using b.nonempty) ?_
    rw [beq_iff_eq, byRatio, compare_gt_iff_gt, ha.sum, hb.sum] at habove
    change rise (segments feerate _) * width (segments feerate _) ≤
      rise (segments feerate _) * width (segments feerate _)
    rw [← (sumFeerate_cast _).1, ← (sumFeerate_cast _).1, ← (sumFeerate_cast _).2,
      ← (sumFeerate_cast _).2]
    exact_mod_cast habove.le

theorem sumFeerate_flatMap {info : List (SetInfo τ)} (h : ∀ c ∈ info, Chunked feerate c) :
    (sumFeerate feerate (info.flatMap (·.transactions))).size =
        width ((info.map (·.feerate)).map segment) ∧
      (sumFeerate feerate (info.flatMap (·.transactions))).fee =
        rise ((info.map (·.feerate)).map segment) := by
  induction info with
  | nil => simp [sumFeerate, width, rise]
  | cons c info ih =>
    obtain ⟨hc, hinfo⟩ := forall_mem_cons.1 h
    obtain ⟨hsize, hfee⟩ := ih hinfo
    simp only [map_cons, width_cons, rise_cons, ← hsize, ← hfee, hc.sum]
    constructor <;> simp [sumFeerate, segment]

section

variable (hpos : ∀ t ∈ linearization, 0 < (feerate t).size)
include hpos

theorem chunked_chunkLinearizationInfo :
    ∀ c ∈ chunkLinearizationInfo feerate linearization, Chunked feerate c := by
  refine forall_chunk (fun a b habove ha hb => ha.union hb habove) fun c hc => ?_
  obtain ⟨t, ht, rfl⟩ := mem_map.1 hc
  refine ⟨by simp [SetInfo.single, sumFeerate], ?_, fun p hp => ?_⟩
  · simpa [segments, SetInfo.single, segment] using hpos t ht
  · rcases prefix_cons_iff.1 hp with rfl | ⟨q, rfl, hq⟩
    · simp [rise, width]
    · rw [prefix_nil.1 hq]
      rfl

/-- **The chunks make the concave hull**: their diagram is the least concave function above the
prefixes of the linearization. -/
theorem chunkLinearization_hull :
    ((chunkLinearization feerate linearization).Pairwise fun a b => b.ratio ≤ a.ratio) ∧
      (chunkLinearizationInfo feerate linearization).map (·.feerate) =
        chunkLinearization feerate linearization ∧
      (chunkLinearizationInfo feerate linearization).flatMap (·.transactions) = linearization ∧
      (∀ c ∈ chunkLinearizationInfo feerate linearization,
        c.feerate = sumFeerate feerate c.transactions) ∧
      diagram (chunkLinearization feerate linearization) ∈ Above feerate linearization ∧
      ∀ f ∈ Above feerate linearization, ∀ x ∈ Icc 0 ((sumFeerate feerate linearization).size : ℝ),
        diagram (chunkLinearization feerate linearization) x ≤ f x := by
  have hmap : (chunkLinearizationInfo feerate linearization).map (·.feerate) =
      chunkLinearization feerate linearization := by
    rw [chunkLinearizationInfo, @map_chunk _ _ _ _ (fun new last => byRatio new last == .gt)
      addFeerate SetInfo.feerate (fun _ _ => rfl) fun _ _ => rfl, map_map]
    rfl
  have hchunked := chunked_chunkLinearizationInfo hpos
  have hflat := flatMap_chunkLinearizationInfo feerate linearization
  have hpair := chunkLinearizationInfo_pairwise hpos
  have hsize := chunkLinearizationInfo_size_pos hpos
  generalize chunkLinearizationInfo feerate linearization = info at *
  obtain rfl := hflat
  have hlen := (sumFeerate_flatMap hchunked).1
  have hsegs : ∀ f ∈ info.map (·.feerate), 0 < f.size := forall_mem_map.2 hsize
  refine ⟨hmap ▸ pairwise_map.2 hpair, hmap, rfl, fun c hc => (hchunked c hc).sum, ?_, ?_⟩
  · rw [← hmap]
    refine ⟨?_, fun p hp => ?_⟩
    · rw [hlen]
      exact concaveOn_height (segment_pos hsegs) (pairwise_segment (pairwise_map.2 hpair))
    · have hgroups : ((info.map fun c => segments feerate c.transactions).map fun g =>
          (width g, rise g)) = (info.map (·.feerate)).map segment := by
        rw [map_map, map_map]
        refine map_congr_left fun c hc => ?_
        rw [comp, comp, (hchunked c hc).sum, segment, (sumFeerate_cast _).1, (sumFeerate_cast _).2]
      rw [(sumFeerate_cast p).1, (sumFeerate_cast p).2, diagram, ← hgroups]
      refine rise_le_height (forall_mem_map.2 fun c hc => (hchunked c hc).pos)
        (forall_mem_map.2 fun c _ => by simpa [segments] using c.nonempty)
        (forall_mem_map.2 fun c hc => (hchunked c hc).below) ?_
      have hall : (info.map fun c => segments feerate c.transactions).flatten =
          segments feerate (info.flatMap (·.transactions)) := by
        simp [segments, flatMap, comp_def]
      rw [hall]
      exact hp.map _
  · rintro f ⟨hconcave, hf⟩ x hx
    rw [hlen] at hconcave hx
    have hle := height_le (b := 0) (segment_pos hsegs) (by rwa [zero_add]) (fun p hp => ?_)
      (by rwa [zero_add])
    · rwa [zero_add, sub_zero, hmap] at hle
    · -- a corner is the end of some chunks
      rw [map_map] at hp
      obtain ⟨part, ⟨rest, rfl⟩, rfl⟩ := prefix_map_iff.1 hp
      have hpart := sumFeerate_flatMap fun c hc => hchunked c (mem_append_left rest hc)
      rw [zero_add, zero_add, ← map_map, ← hpart.1, ← hpart.2]
      exact hf _ (by simp)

end

def risingFeerate (t : ℕ) : FeeFrac := ⟨t + 1, 1⟩

theorem chunkLinearization_rising : (∀ t ∈ [0, 1], 0 < (risingFeerate t).size) ∧
    chunkLinearization risingFeerate [0, 1] = [⟨3, 2⟩] ∧
    diagram (chunkLinearization risingFeerate [0, 1]) ∈ Above risingFeerate [0, 1] :=
  ⟨by decide, by decide, (chunkLinearization_hull (by decide)).2.2.2.2.1⟩

/-! ## Comparing diagrams -/

open Option Int Bool

/-- The subtraction of feerates, in 64 bits. -/
def subFeerate (a b : FeeFrac) : FeeFrac := ⟨(a.fee - b.fee).bmod (2 ^ 64), a.size - b.size⟩

/-- The last processed point of a diagram, and the chunks behind it. -/
structure Cursor where
  accum : FeeFrac := ⟨0, 0⟩
  todo : List FeeFrac

namespace Cursor

variable (c : Cursor)

def nextPoint : Option FeeFrac := c.todo.head?.map (addFeerate · c.accum)

def advance : Cursor :=
  match c.todo with
  | [] => c
  | f :: todo => ⟨addFeerate c.accum f, todo⟩

/-- A point of the given size is marked as processed. -/
def pass (size : ℤ) : Cursor :=
  if c.nextPoint.map (·.size) = some size then c.advance else c

/-- `slope_ab`: the slope up to the next point, and no slope behind the last one. -/
def slope : FeeFrac := c.nextPoint.elim ⟨0, 1⟩ (subFeerate · c.accum)

theorem length_pass (size : ℤ) : (c.pass size).todo.length +
    (if c.nextPoint.map (·.size) = some size then 1 else 0) = c.todo.length := by
  rw [pass]
  split
  · obtain ⟨a, _ | ⟨s, todo⟩⟩ := c
    · rename_i hnone
      cases hnone
    · rfl
  · rfl

end Cursor

variable (cursor : Bool → Cursor)

/-- `unproc_side`: which diagram has the first unprocessed point. -/
def unprocSide : Bool :=
  match (cursor false).nextPoint, (cursor true).nextPoint with
  | some p, some q => q.size < p.size
  | p, _ => p.isNone

/-- `better_somewhere`, when the point `p` of `side` is processed. -/
def betterSomewhere (side : Bool) (p : FeeFrac) (better : Bool → Bool) (i : Bool) : Bool :=
  better i || byRatio (subFeerate p (cursor !side).accum) (cursor !side).slope ==
    if i = side then .gt else .lt

/-- The loop, which ends when no point is left on the side that has the first one. -/
def compareLoop : ℕ → (Bool → Cursor) → (Bool → Bool) → Option Ordering
  | 0, _, better => some (compare (better false) (better true))
  | fuel + 1, cursor, better =>
    let side := unprocSide cursor
    match (cursor side).nextPoint with
    | none => some (compare (better false) (better true))
    | some p =>
      let better := betterSomewhere cursor side p better
      if better false && better true then none
      else compareLoop fuel (fun i => (cursor i).pass p.size) better

/-- `CompareChunks`, where `none` is unordered. -/
def compareChunks (chunks₀ chunks₁ : List FeeFrac) : Option Ordering :=
  compareLoop (chunks₀.length + chunks₁.length)
    (fun side => { todo := if side then chunks₁ else chunks₀ }) fun _ => false

/-- The differences of fees that the loop forms: of `slope_ap`, and of `slope_ab` if both have
points left. -/
def differencesLoop : ℕ → (Bool → Cursor) → (Bool → Bool) → List ℤ
  | 0, _, _ => []
  | fuel + 1, cursor, better =>
    let side := unprocSide cursor
    match (cursor side).nextPoint with
    | none => []
    | some p =>
      let a := (cursor !side).accum
      let better := betterSomewhere cursor side p better
      (p.fee - a.fee) :: (((cursor !side).nextPoint.map (·.fee - a.fee)).toList ++
        if better false && better true then []
        else differencesLoop fuel (fun i => (cursor i).pass p.size) better)

def differences (chunks₀ chunks₁ : List FeeFrac) : List ℤ :=
  differencesLoop (chunks₀.length + chunks₁.length)
    (fun side => { todo := if side then chunks₁ else chunks₀ }) fun _ => false

/-- **No subtraction of the comparison overflows.** -/
abbrev NoOverflow (chunks₀ chunks₁ : List FeeFrac) : Prop :=
  ∀ d ∈ differences chunks₀ chunks₁, IsInt64 d

/-- `CompareChunks` as the language defines it: signed overflow has no result. -/
def definedCompareChunks (chunks₀ chunks₁ : List FeeFrac) : Option (Option Ordering) :=
  if NoOverflow chunks₀ chunks₁ then some (compareChunks chunks₀ chunks₁) else none

variable {f g : ℝ → ℝ} {c : Cursor} {p : FeeFrac} {x m : ℝ} {lo : ℤ}

/-- At no size above. -/
def Beneath (f g : ℝ → ℝ) : Prop := ∀ x, 0 ≤ x → f x ≤ g x

open Classical in
/-- How two diagrams compare at every size. -/
noncomputable def order (f g : ℝ → ℝ) : Option Ordering :=
  if Beneath f g then if Beneath g f then some .eq else some .lt
  else if Beneath g f then some .gt else none

theorem order_of_flags {p q : Bool} (hf : Beneath f g ↔ p = false) (hg : Beneath g f ↔ q = false) :
    order f g = if p && q then none else some (compare p q) := by
  cases p <;> cases q <;> simp [order, hf, hg] <;> rfl

theorem order_swap (f g : ℝ → ℝ) : order g f = (order f g).map .swap := by
  rw [order, order]
  split_ifs <;> rfl

theorem order_congr {f' g' : ℝ → ℝ} (h : Beneath f g ↔ Beneath f' g')
    (h' : Beneath g f ↔ Beneath g' f') : order f g = order f' g' := by
  grind [order]

theorem order_trans {h : ℝ → ℝ} {o : Ordering} (hfg : order f g = some o)
    (hgh : order g h = some o) : order f h = some o := by
  have htrans : ∀ {f g h}, Beneath f g → Beneath g h → Beneath f h := fun h h' x hx =>
    (h x hx).trans (h' x hx)
  grind [order]

/-- **The cursor stands on the diagram** `f`. -/
structure Tracks (f : ℝ → ℝ) (c : Cursor) : Prop where
  pos : ∀ s ∈ c.todo, 0 < s.size
  height : ∀ x, (c.accum.size : ℝ) ≤ x →
    f x = c.accum.fee + height (c.todo.map segment) (x - c.accum.size)

theorem subFeerate_eq {a b : FeeFrac} (h : IsInt64 (a.fee - b.fee)) :
    subFeerate a b = ⟨a.fee - b.fee, a.size - b.size⟩ := by
  rw [subFeerate, bmod_eq_of_le (by omega) (by omega)]

/-- The slope is that of the next chunk. -/
theorem Cursor.slope_eq (hfits : ∀ b, c.nextPoint = some b → IsInt64 (b.fee - c.accum.fee)) :
    c.slope = c.todo.headD ⟨0, 1⟩ := by
  obtain ⟨a, _ | ⟨s, todo⟩⟩ := c
  · rfl
  · refine (subFeerate_eq (hfits _ rfl)).trans ?_
    simp [addFeerate]

namespace Tracks

variable (h : Tracks f c)
include h

theorem headD_size_pos : 0 < (c.todo.headD ⟨0, 1⟩).size := by
  obtain ⟨a, _ | ⟨s, todo⟩⟩ := c
  · exact one_pos
  · exact h.pos s (by simp)

/-- **Up to its next corner the diagram is a line.** -/
theorem line (hx : (c.accum.size : ℝ) ≤ x) (hnext : ∀ p, c.nextPoint = some p → x ≤ p.size) :
    f x = c.accum.fee + (c.todo.headD ⟨0, 1⟩).fee / (c.todo.headD ⟨0, 1⟩).size *
      (x - c.accum.size) := by
  rw [h.height x hx]
  obtain ⟨a, _ | ⟨s, todo⟩⟩ := c
  · simp [Diagram.height]
  · have hle := hnext _ rfl
    rw [map_cons, Diagram.height, if_pos]
    · rfl
    · simpa [segment, addFeerate] using hle

theorem advance : Tracks f c.advance := by
  obtain ⟨a, _ | ⟨s, todo⟩⟩ := c
  · exact h
  obtain ⟨hs, hpos⟩ := forall_mem_cons.1 h.pos
  refine ⟨hpos, fun x hx => ?_⟩
  have hs' : (0 : ℝ) < s.size := cast_pos.2 hs
  simp only [Cursor.advance, addFeerate, cast_add] at hx ⊢
  rw [h.height x (by linarith), map_cons, height_cons (segment_pos h.pos)]
  · simp only [segment]
    ring_nf
  · simp only [segment]
    linarith

theorem corner (hp : c.nextPoint = some p) : f p.size = p.fee := by
  have hadv := h.advance
  obtain ⟨a, _ | ⟨s, todo⟩⟩ := c
  · cases hp
  · cases hp
    have hat := hadv.height _ le_rfl
    rw [sub_self, height_zero (segment_pos hadv.pos)] at hat
    simpa [Cursor.advance, addFeerate, add_comm] using hat

theorem pass {n : ℤ} (hreached : c.accum.size ≤ n)
    (hfirst : ∀ q, c.nextPoint = some q → n ≤ q.size) :
    Tracks f (c.pass n) ∧ (c.pass n).accum.size ≤ n ∧
      ∀ q, (c.pass n).nextPoint = some q → n < q.size := by
  rw [Cursor.pass]
  split
  · rename_i heq
    obtain ⟨a, _ | ⟨s, todo⟩⟩ := c
    · cases heq
    have hsum : s.size + a.size = n := some.inj heq
    refine ⟨h.advance, (add_comm ..).trans_le hsum.le, ?_⟩
    rcases todo with _ | ⟨s', todo⟩
    · rintro q ⟨⟩
    · rintro q ⟨⟩
      have hpos := h.pos s' (by simp)
      show n < s'.size + (a.size + s.size)
      omega
  · rename_i hne
    exact ⟨h, hreached, fun q hq => (hfirst q hq).lt_of_ne fun heq => hne (by rw [hq, heq]; rfl)⟩

end Tracks

/-- **A line tells at its ends** where it is above another one. -/
theorem exists_lt_Icc (hm : 0 ≤ m) (hmx : m ≤ x) {a b c a' b' c' : ℝ}
    (hf : ∀ y ∈ Icc m x, f y = a + b * (y - c)) (hg : ∀ y ∈ Icc m x, g y = a' + b' * (y - c')) :
    (∃ y ∈ Icc 0 x, g y < f y) ↔ (∃ y ∈ Icc 0 m, g y < f y) ∨ g x < f x := by
  refine ⟨fun ⟨y, hy, hlt⟩ => ?_, ?_⟩
  · by_contra hno
    push Not at hno
    obtain ⟨hbelow, hend⟩ := hno
    rcases le_or_gt y m with hym | hmy
    · exact absurd hlt (not_lt.2 (hbelow y ⟨hy.1, hym⟩))
    have hstart := hbelow m ⟨hm, le_rfl⟩
    have hin : y ∈ Icc m x := ⟨hmy.le, hy.2⟩
    rw [hf m ⟨le_rfl, hmx⟩, hg m ⟨le_rfl, hmx⟩] at hstart
    rw [hf x ⟨hmx, le_rfl⟩, hg x ⟨hmx, le_rfl⟩] at hend
    rw [hf y hin, hg y hin] at hlt
    rcases le_total b' b with hb | hb
    · linarith [mul_le_mul_of_nonneg_left hy.2 (sub_nonneg.2 hb)]
    · linarith [mul_le_mul_of_nonneg_left hmy.le (sub_nonneg.2 hb)]
  · rintro (⟨y, hy, hlt⟩ | hlt)
    · exact ⟨y, ⟨hy.1, hy.2.trans hmx⟩, hlt⟩
    · exact ⟨x, ⟨hm.trans hmx, le_rfl⟩, hlt⟩

/-- The slopes from `a` tell on which side of the line through it a point is. -/
theorem byRatio_iff {a q : FeeFrac} (hq : 0 < q.size) {y : ℝ}
    (hy : y = a.fee + q.fee / q.size * (p.size - a.size)) :
    (byRatio ⟨p.fee - a.fee, p.size - a.size⟩ q = .gt ↔ y < p.fee) ∧
      (byRatio ⟨p.fee - a.fee, p.size - a.size⟩ q = .lt ↔ p.fee < y) := by
  have hq' : (0 : ℝ) < q.size := cast_pos.2 hq
  rw [byRatio, compare_gt_iff_gt, compare_lt_iff_lt, ← cast_lt (R := ℝ),
    ← cast_lt (R := ℝ), hy, ← lt_sub_iff_add_lt', ← sub_lt_iff_lt_add', div_mul_eq_mul_div,
    div_lt_iff₀ hq', lt_div_iff₀ hq']
  push_cast
  exact ⟨Iff.rfl, Iff.rfl⟩

theorem unprocSide_le {cursor : Bool → Cursor} (i : Bool) {q : FeeFrac}
    (hq : (cursor i).nextPoint = some q) :
    ∃ p, (cursor (unprocSide cursor)).nextPoint = some p ∧ p.size ≤ q.size := by
  rw [unprocSide]
  cases h₀ : (cursor false).nextPoint with
  | none => cases i <;> simp_all
  | some q₀ =>
    cases h₁ : (cursor true).nextPoint with
    | none => cases i <;> simp_all
    | some q₁ =>
      simp only
      cases hlt : decide (q₁.size < q₀.size) <;> cases i <;> simp_all [le_of_lt]

/-- **The diagrams are compared up to** size `m`. -/
structure Compared (f : Bool → ℝ → ℝ) (m : ℝ) (cursor : Bool → Cursor)
    (better : Bool → Bool) : Prop where
  nonneg : 0 ≤ m
  tracks : ∀ i, Tracks (f i) (cursor i)
  reached : ∀ i, ((cursor i).accum.size : ℝ) ≤ m
  ahead : ∀ i p, (cursor i).nextPoint = some p → m < p.size
  better_iff : ∀ i, better i = true ↔ ∃ x ∈ Icc 0 m, f (!i) x < f i x

namespace Compared

variable {f : Bool → ℝ → ℝ} {cursor : Bool → Cursor} {better : Bool → Bool}
  (h : Compared f m cursor better)
include h

theorem eq_false {i : Bool} (hle : Beneath (f i) (f !i)) : better i = false := by
  refine eq_false_iff.2 fun hbetter => ?_
  obtain ⟨x, hx, hlt⟩ := (h.better_iff i).1 hbetter
  exact absurd (hle x hx.1) (not_le.2 hlt)

/-- **Behind the last points** the diagrams are level. -/
theorem le_iff (hdone : ∀ i, (cursor i).nextPoint = none)
    (i : Bool) : Beneath (f i) (f !i) ↔ better i = false := by
  refine ⟨h.eq_false, fun hbetter x hx => ?_⟩
  have hlevel : ∀ j y, m ≤ y → f j y = (cursor j).accum.fee := fun j y hy => by
    have hnil : (cursor j).todo = [] := by simpa [Cursor.nextPoint] using hdone j
    rw [(h.tracks j).line ((h.reached j).trans hy) (by simp [hdone]), hnil]
    simp
  by_contra hlt
  refine absurd ((h.better_iff i).2 ?_) (by simp [hbetter])
  rcases le_total x m with hxm | hxm
  · exact ⟨x, ⟨hx, hxm⟩, not_le.1 hlt⟩
  · refine ⟨m, ⟨h.nonneg, le_rfl⟩, ?_⟩
    rw [hlevel _ m le_rfl, hlevel _ m le_rfl, ← hlevel (!i) x hxm, ← hlevel i x hxm]
    exact not_le.1 hlt

/-- **One point further**, where the differences fit. -/
theorem step (hp : (cursor (unprocSide cursor)).nextPoint = some p)
    (hap : IsInt64 (p.fee - (cursor !unprocSide cursor).accum.fee))
    (hab : ∀ b, (cursor !unprocSide cursor).nextPoint = some b →
      IsInt64 (b.fee - (cursor !unprocSide cursor).accum.fee)) :
    Compared f p.size (fun i => (cursor i).pass p.size)
      (betterSomewhere cursor (unprocSide cursor) p better) := by
  have hfirst : ∀ i q, (cursor i).nextPoint = some q → p.size ≤ q.size := fun i q hq => by
    obtain ⟨p', hp', hle⟩ := unprocSide_le i hq
    rwa [some.inj (hp'.symm.trans hp)] at hle
  generalize unprocSide cursor = side at *
  have hmp := h.ahead side p hp
  have hline : ∀ i, ∀ y ∈ Icc m p.size, f i y = (cursor i).accum.fee +
      ((cursor i).todo.headD ⟨0, 1⟩).fee / ((cursor i).todo.headD ⟨0, 1⟩).size *
        (y - (cursor i).accum.size) := fun i y hy =>
    (h.tracks i).line ((h.reached i).trans hy.1)
      fun q hq => hy.2.trans (cast_le.2 (hfirst i q hq))
  have hcmp := byRatio_iff (h.tracks !side).headD_size_pos
    (hline (!side) p.size ⟨hmp.le, le_rfl⟩)
  rw [← subFeerate_eq hap, ← Cursor.slope_eq hab, ← (h.tracks side).corner hp] at hcmp
  have hpass i := (h.tracks i).pass (cast_le.1 ((h.reached i).trans hmp.le)) (hfirst i)
  refine ⟨h.nonneg.trans hmp.le, fun i => (hpass i).1, fun i => cast_le.2 (hpass i).2.1,
    fun i q hq => cast_lt.2 ((hpass i).2.2 q hq), fun i => ?_⟩
  rw [betterSomewhere, or_eq_true, h.better_iff,
    exists_lt_Icc h.nonneg hmp.le (hline i) (hline !i), beq_iff_eq]
  rcases eq_or_ne i side with rfl | hne
  · rw [if_pos rfl, hcmp.1]
  · obtain rfl : side = !i := eq_not_of_ne hne.symm
    rw [if_neg hne, hcmp.2, Bool.not_not]

theorem done (hnot : (better false && better true) = false)
    (hdone : ∀ i, (cursor i).nextPoint = none) :
    some (compare (better false) (better true)) = order (f false) (f true) := by
  rw [order_of_flags (g := f true) (h.le_iff hdone false) (h.le_iff hdone true), hnot]
  rfl

omit h

/-- **The loop** comes to the end of both diagrams, or to a size where each of them was
better. -/
theorem compareLoop (fuel : ℕ) (h : Compared f m cursor better)
    (hfuel : (cursor false).todo.length + (cursor true).todo.length ≤ fuel)
    (hnot : (better false && better true) = false)
    (hfits : ∀ d ∈ differencesLoop fuel cursor better, IsInt64 d) :
    compareLoop fuel cursor better = order (f false) (f true) := by
  induction fuel generalizing m cursor better with
  | zero =>
    refine h.done hnot fun i => ?_
    have htodo : (cursor i).todo = [] := length_eq_zero_iff.1 (by cases i <;> omega)
    rw [Cursor.nextPoint, htodo]
    rfl
  | succ fuel ih =>
    rw [TxGraph.compareLoop]
    cases hp : (cursor (unprocSide cursor)).nextPoint with
    | none =>
      refine h.done hnot fun i => eq_none_iff_forall_ne_some.2 fun q hq => ?_
      obtain ⟨p, hp', -⟩ := unprocSide_le i hq
      rw [hp] at hp'
      cases hp'
    | some p =>
      simp only [differencesLoop, hp, forall_mem_cons, forall_mem_append] at hfits
      obtain ⟨hap, hab, hrest⟩ := hfits
      have hstep := h.step hp hap fun b hb => hab _ (by simp [hb])
      dsimp only
      split_ifs with hboth
      · rw [and_eq_true] at hboth
        rw [order, if_neg fun hle => ?_, if_neg fun hle => ?_]
        · exact absurd (hstep.eq_false hle) (by simp [hboth.2])
        · exact absurd (hstep.eq_false hle) (by simp [hboth.1])
      · have h₀ := (cursor false).length_pass p.size
        have h₁ := (cursor true).length_pass p.size
        have hside := (cursor (unprocSide cursor)).length_pass p.size
        simp only [hp, map_some, if_true] at hside
        rw [if_neg hboth] at hrest
        refine ih hstep ?_ (by simpa using hboth) hrest
        generalize unprocSide cursor = side at hside
        cases side <;> omega

end Compared

/-- **The comparison is exact** where no subtraction overflows. -/
theorem compareChunks_eq {A B : List FeeFrac} (hA : ∀ s ∈ A, 0 < s.size)
    (hB : ∀ s ∈ B, 0 < s.size) (hfits : NoOverflow A B) :
    compareChunks A B = order (diagram A) (diagram B) := by
  have htracks : ∀ {l : List FeeFrac}, (∀ s ∈ l, 0 < s.size) →
      Tracks (diagram l) { todo := l } := fun h => ⟨h, fun x _ => by simp [diagram]⟩
  have hahead : ∀ {l : List FeeFrac} {p}, (∀ s ∈ l, 0 < s.size) →
      Cursor.nextPoint { todo := l } = some p → (0 : ℝ) < p.size := by
    rintro (_ | ⟨s, l⟩) p h ⟨⟩
    simpa [addFeerate] using h s (by simp)
  have hzero : ∀ {l : List FeeFrac}, (∀ s ∈ l, 0 < s.size) → diagram l 0 = 0 := fun h =>
    height_zero (segment_pos h)
  refine @Compared.compareLoop _ (fun side => diagram (if side then B else A)) _ _ _
    ⟨le_rfl, ?_, by simp, ?_, ?_⟩ (by simp) rfl hfits
  · rintro (_ | _)
    · exact htracks hA
    · exact htracks hB
  · rintro (_ | _) p hp
    · exact hahead hA hp
    · exact hahead hB hp
  · rintro (_ | _) <;> simp [hzero hA, hzero hB]

/-- **`CompareChunks` is exact** just where none of its subtractions overflows, and so
antisymmetric and transitive. -/
theorem compareChunks_exact {A B C : List FeeFrac} (hA : ∀ s ∈ A, 0 < s.size)
    (hB : ∀ s ∈ B, 0 < s.size) (hC : ∀ s ∈ C, 0 < s.size) :
    (definedCompareChunks A B = some (order (diagram A) (diagram B)) ↔ NoOverflow A B) ∧
      (NoOverflow A B → compareChunks A B = order (diagram A) (diagram B)) ∧
      (NoOverflow A B → NoOverflow B A → compareChunks B A = (compareChunks A B).map .swap) ∧
      (NoOverflow A B → NoOverflow B C → NoOverflow A C → ∀ o, compareChunks A B = some o →
        compareChunks B C = some o → compareChunks A C = some o) := by
  refine ⟨?_, compareChunks_eq hA hB, fun hAB hBA => ?_, fun hAB hBC hAC o => ?_⟩
  · rw [definedCompareChunks]
    split
    · next hfits => exact ⟨fun _ => hfits, fun _ => by rw [compareChunks_eq hA hB hfits]⟩
    · next hnot => exact ⟨fun h => (nomatch h), fun h => absurd h hnot⟩
  · rw [compareChunks_eq hB hA hBA, compareChunks_eq hA hB hAB, order_swap]
  · rw [compareChunks_eq hA hB hAB, compareChunks_eq hB hC hBC, compareChunks_eq hA hC hAC]
    exact order_trans

/-- Fees far apart are compared all the same where the differences that are formed fit. -/
theorem compareChunks_exact_pair : definedCompareChunks [⟨3 * 2 ^ 61, 1⟩] [⟨-3 * 2 ^ 61, 1⟩] =
        some (order (diagram [⟨3 * 2 ^ 61, 1⟩]) (diagram [⟨-3 * 2 ^ 61, 1⟩])) ∧
      compareChunks [⟨2, 1⟩, ⟨1, 1⟩] [⟨3, 1⟩] = (some .gt).map .swap := by
  have hfar := compareChunks_exact (A := [⟨3 * 2 ^ 61, 1⟩]) (B := [⟨-3 * 2 ^ 61, 1⟩]) (C := [])
    (by decide) (by decide) (by decide)
  have hnear := compareChunks_exact (A := [⟨3, 1⟩]) (B := [⟨2, 1⟩, ⟨1, 1⟩]) (C := [])
    (by decide) (by decide) (by decide)
  exact ⟨hfar.1.2 (by decide), hnear.2.2.1 (by decide) (by decide)⟩

/-- Fees far above zero, and fees far below. -/
def highChunks : List FeeFrac := [⟨3 * 2 ^ 61, 4⟩, ⟨0, 1⟩]

def lowChunks : List FeeFrac := [⟨-3 * 2 ^ 61, 4⟩, ⟨-3 * 2 ^ 59, 1⟩]

/-- **A difference of fees overflows** though all of their sums fit, and the higher
diagram is not found to be better. -/
theorem compareChunks_wraps :
    (∀ l ∈ [highChunks, lowChunks], l.Pairwise (fun a b => byRatio b a ≠ .gt) ∧
        ∀ p ∈ l.inits, |(p.map (·.fee)).sum| < 2 ^ 63) ∧
      Beneath (diagram lowChunks) (diagram highChunks) ∧
      ¬NoOverflow highChunks lowChunks ∧ compareChunks highChunks lowChunks = none := by
  refine ⟨by decide, fun x hx => ?_, by decide, by decide⟩
  simp only [diagram, highChunks, lowChunks, map, height, segment]
  push_cast
  split_ifs <;> linarith

/-! ### Fees in one range -/

/-- A fee in the range above `lo`: the differences of such fees fit in 64 bits. -/
abbrev Within (lo fee : ℤ) : Prop := lo ≤ fee ∧ fee < lo + 2 ^ 63

/-- The cumulative fees from the cursor on are in one range. -/
def Cursor.Ranges (lo : ℤ) (c : Cursor) : Prop :=
  ∀ n, Within lo (c.accum.fee + ((c.todo.take n).map (·.fee)).sum)

theorem Cursor.Ranges.pass (h : c.Ranges lo) (n : ℤ) : (c.pass n).Ranges lo := by
  rw [Cursor.pass]
  split
  · obtain ⟨a, _ | ⟨s, todo⟩⟩ := c
    · exact h
    · exact fun n => by simpa [advance, addFeerate, add_assoc] using h (n + 1)
  · exact h

theorem Cursor.Ranges.nextPoint (h : c.Ranges lo) (hp : c.nextPoint = some p) :
    Within lo p.fee := by
  obtain ⟨a, _ | ⟨s, todo⟩⟩ := c
  · cases hp
  · cases hp
    simpa [addFeerate, add_comm] using h 1

/-- **Fees in one range** are compared without an overflow. -/
theorem isInt64_of_ranges (fuel : ℕ) {cursor : Bool → Cursor} {better : Bool → Bool}
    (h : ∀ i, (cursor i).Ranges lo) : ∀ d ∈ differencesLoop fuel cursor better, IsInt64 d := by
  induction fuel generalizing cursor better with
  | zero => simp [differencesLoop]
  | succ fuel ih =>
    have haccum : ∀ i, Within lo (cursor i).accum.fee := fun i => by simpa using h i 0
    cases hp : (cursor (unprocSide cursor)).nextPoint with
    | none => simp [differencesLoop, hp]
    | some p =>
      simp only [differencesLoop, hp, forall_mem_cons, forall_mem_append]
      have hpoint := (h _).nextPoint hp
      have ha := haccum !unprocSide cursor
      refine ⟨⟨by omega, by omega⟩, fun d hd => ?_, ?_⟩
      · obtain ⟨b, hb, rfl⟩ := Option.map_eq_some_iff.1 (mem_toList.1 hd)
        have hb := (h _).nextPoint hb
        exact ⟨by omega, by omega⟩
      · split_ifs
        · simp
        · exact ih fun i => (h i).pass p.size

/-- Chunks whose cumulative fees are in one range. -/
structure Comparable (lo : ℤ) (chunks : List FeeFrac) : Prop where
  pos : ∀ s ∈ chunks, 0 < s.size
  fits : ∀ p ∈ chunks.inits, Within lo (p.map (·.fee)).sum

theorem Comparable.compareChunks_eq {A B : List FeeFrac} (hA : Comparable lo A)
    (hB : Comparable lo B) : compareChunks A B = order (diagram A) (diagram B) := by
  have hranges : ∀ {l}, Comparable lo l → Cursor.Ranges lo { todo := l } := fun {l} h n => by
    simpa using h.fits _ ((mem_inits _ _).2 ( take_prefix n l))
  refine TxGraph.compareChunks_eq hA.pos hB.pos (@isInt64_of_ranges lo _ _ _ ?_)
  rintro (_ | _)
  · exact hranges hA
  · exact hranges hB

/-! ## Replacements -/

/-- The chunks in the order of a diagram. -/
structure SortedFrom (chunks sorted : List FeeFrac) : Prop where
  perm : sorted.Perm chunks
  pairwise : sorted.Pairwise fun a b => b.ratio ≤ a.ratio

/-- Chunks that pay no negative fees, and in all what fits in 64 bits. -/
structure InRange (chunks : List FeeFrac) : Prop where
  valid : ∀ f ∈ chunks, 0 < f.size ∧ 0 ≤ f.fee
  fits : (chunks.map (·.fee)).sum < 2 ^ 63

variable {A A' B B' : List FeeFrac}

theorem sum_nonneg_of_valid (h : ∀ f ∈ A, 0 < f.size ∧ 0 ≤ f.fee) : 0 ≤ (A.map (·.fee)).sum :=
  sum_nonneg (forall_mem_map.2 fun f hf => (h f hf).2)

theorem InRange.left (h : InRange (A ++ B)) : InRange A := by
  obtain ⟨hA, hB⟩ := forall_mem_append.1 h.valid
  have hfits := h.fits
  have hnonneg := sum_nonneg_of_valid hB
  rw [map_append, sum_append] at hfits
  exact ⟨hA, by omega⟩

theorem InRange.perm (hA : InRange A) (h : A'.Perm A) : InRange A' :=
  ⟨fun f hf => hA.valid f (h.subset hf), by rw [(h.map _).sum_eq]; exact hA.fits⟩

namespace SortedFrom

theorem comparable (h : SortedFrom A A') (hA : InRange A) : Comparable 0 A' where
  pos f hf := ((hA.perm h.perm).valid f hf).1
  fits p hp := by
    obtain ⟨q, rfl⟩ := (mem_inits _ _).1 hp
    have hpart := (hA.perm h.perm).left
    exact ⟨sum_nonneg_of_valid hpart.valid, by simpa using hpart.fits⟩

/-- Diagrams compare as the distances of their chunks from lines do, in any order. -/
theorem beneath_iff (hA : SortedFrom A A') (hB : SortedFrom B B') (hinA : InRange A)
    (hinB : InRange B) : Beneath (diagram A') (diagram B') ↔
      ∀ k, 0 ≤ k → excess (A.map segment) k ≤ excess (B.map segment) k := by
  have hexcess : ∀ {l l' k}, SortedFrom l l' →
      excess (l'.map segment) k = excess (l.map segment) k :=
    fun h => ((h.perm.map _).map _).sum_eq
  have hpos : ∀ {l l'}, SortedFrom l l' → InRange l → ∀ s ∈ l'.map segment, 0 < s.1 :=
    fun h hin => segment_pos fun f hf => ((hin.perm h.perm).valid f hf).1
  have hrise : ∀ s ∈ B'.map segment, 0 ≤ s.2 :=
    forall_mem_map.2 fun f hf => cast_nonneg ((hinB.perm hB.perm).valid f hf).2
  refine (height_le_height_iff (hpos hA hinA) (pairwise_segment hA.pairwise) (hpos hB hinB) hrise
    (pairwise_segment hB.pairwise)).trans ?_
  simp only [hexcess hA, hexcess hB]

end SortedFrom

/-- **What both diagrams have in common** does not matter. -/
theorem compareChunks_append {C AC BC : List FeeFrac} (hA : SortedFrom A A')
    (hB : SortedFrom B B') (hAC : SortedFrom (A ++ C) AC) (hBC : SortedFrom (B ++ C) BC)
    (hinA : InRange (A ++ C)) (hinB : InRange (B ++ C)) :
    compareChunks A' B' = compareChunks AC BC := by
  rw [(hA.comparable hinA.left).compareChunks_eq (hB.comparable hinB.left),
    (hAC.comparable hinA).compareChunks_eq (hBC.comparable hinB)]
  apply order_congr
  · rw [hA.beneath_iff hB hinA.left hinB.left, hAC.beneath_iff hBC hinA hinB]
    simp [excess_append]
  · rw [hB.beneath_iff hA hinB.left hinA.left, hBC.beneath_iff hAC hinB hinA]
    simp [excess_append]

/-- The acceptable clusters of both levels; staging has those that it changes. -/
structure Levels (τ : Type*) where
  main : List (Cluster τ)
  staging : List (Cluster τ)
  removed : List τ
  compatible : Compatible main

/-- `std::ranges::sort`, by decreasing feerate. -/
def sortFeerates (l : List FeeFrac) : List FeeFrac :=
  l.mergeSort fun a b => decide (b.ratioNegSize ≤ a.ratioNegSize)

def appendChunkFeerates (clusters : List (Cluster τ)) : List FeeFrac :=
  clusters.flatMap fun c => chunkLinearization c.feerate c.linearization

namespace Levels

variable [DecidableEq τ] (g : Levels τ)

/-- The transactions that staging removes or has. -/
def touched : List τ := g.removed ++ g.staging.flatMap (·.linearization)

def mainCluster (t : τ) : Option (Cluster τ) := g.main.find? (t ∈ ·.linearization)

/-- `GetConflicts`: in the order of their sequence numbers, and each once. -/
def getConflicts : List (Cluster τ) :=
  ((g.touched.filterMap g.mainCluster).mergeSort fun a b => a.sequence ≤ b.sequence).pwFilter
    (·.sequence ≠ ·.sequence)

/-- A transaction of the cluster is removed, or it is in staging, too. -/
def conflicting (c : Cluster τ) : Bool := c.linearization.any (· ∈ g.touched)

theorem getConflicts_perm : g.getConflicts.Perm (g.main.filter g.conflicting) := by
  have hmem : ∀ c, c ∈ g.touched.filterMap g.mainCluster ↔ c ∈ g.main.filter g.conflicting := by
    intro c
    simp only [mem_filterMap, mem_filter, conflicting, List.any_eq_true, decide_eq_true_eq]
    constructor
    · rintro ⟨t, ht, hfind⟩
      exact ⟨mem_of_find?_eq_some hfind, t, by simpa using find?_some hfind, ht⟩
    · rintro ⟨hc, t, htc, ht⟩
      refine ⟨t, ht, ?_⟩
      cases hfind : g.mainCluster t with
      | none => exact absurd htc (by simpa using find?_eq_none.1 hfind c hc)
      | some d =>
        rw [g.compatible.eq_of_mem hc (mem_of_find?_eq_some hfind) htc
          (by simpa using find?_some hfind)]
  have hsub : ∀ {c}, c ∈ g.getConflicts → c ∈ g.main.filter g.conflicting := fun hc =>
    (hmem _).1 (mem_mergeSort.1 (pwFilter_subset _ hc))
  have hpair : g.getConflicts.Pairwise (·.sequence ≠ ·.sequence) := pairwise_pwFilter _
  refine (perm_ext_iff_of_nodup (hpair.imp fun hne heq => hne (congrArg _ heq))
    (.filter _ (.of_map _ g.compatible.sequences))).2 fun c => ⟨hsub, fun hc => ?_⟩
  by_contra hnot
  -- if its number is not among those kept, it is not among all of them
  refine (forall_mem_pwFilter (R := fun a b : Cluster τ => a.sequence ≠ b.sequence) (by grind) c
    _).1 (fun d (hd : d ∈ g.getConflicts) heq => hnot ?_) c (mem_mergeSort.2 ((hmem c).2 hc)) rfl
  exact g.compatible.eq_of_sequence (mem_filter.1 hc).1 (mem_filter.1 (hsub hd)).1 heq ▸ hd

def getMainStagingDiagrams : List FeeFrac × List FeeFrac :=
  (sortFeerates (appendChunkFeerates g.getConflicts), sortFeerates (appendChunkFeerates g.staging))

/-- The clusters of the staging level, those of main that it leaves as they are included. -/
def allStaging : List (Cluster τ) := g.staging ++ g.main.filter (!g.conflicting ·)

def completeDiagrams : List FeeFrac × List FeeFrac :=
  (sortFeerates (appendChunkFeerates g.main), sortFeerates (appendChunkFeerates g.allStaging))

end Levels

inductive DiagramCheckError
  | uncalculable
  | failure
  deriving DecidableEq

/-- `ImprovesFeerateDiagram`, on what `CalculateChunksForRBF` gives. -/
def improvesFeerateDiagram (chunkResults : Except String (List FeeFrac × List FeeFrac)) :
    Option (DiagramCheckError × String) :=
  match chunkResults with
  | .error e => some (.uncalculable, e)
  | .ok (old, new) =>
    if compareChunks new old ≠ some .gt then
      some (.failure, "insufficient feerate: does not improve feerate diagram")
    else none

theorem sortedFrom_sortFeerates (h : A.Perm B) : SortedFrom B (sortFeerates A) where
  perm := (mergeSort_perm ..).trans h
  pairwise := by
    refine (pairwise_mergeSort ?_ ?_ A).imp fun hle =>
      FeeFrac.ratio_le_of_ratioNegSize_le (of_decide_eq_true hle)
    · intro a b c hab hbc
      simp only [decide_eq_true_eq] at *
      exact hbc.trans hab
    · intro a b
      simpa using le_total b.ratioNegSize a.ratioNegSize

/-- **Common clusters can be left out**: a replacement is judged on the clusters that it changes
as it is on all of them. -/
theorem compareChunks_common [DecidableEq τ] :
    (∀ A B C A' B' AC BC, SortedFrom A A' → SortedFrom B B' → SortedFrom (A ++ C) AC →
      SortedFrom (B ++ C) BC → InRange (A ++ C) → InRange (B ++ C) →
      compareChunks A' B' = compareChunks AC BC) ∧
    ∀ g : Levels τ, InRange (appendChunkFeerates g.main) →
      InRange (appendChunkFeerates g.allStaging) →
      improvesFeerateDiagram (.ok g.getMainStagingDiagrams) =
        improvesFeerateDiagram (.ok g.completeDiagrams) := by
  refine ⟨fun _ _ _ _ _ _ _ => compareChunks_append, fun g hmain hstaging => ?_⟩
  have hsplit : appendChunkFeerates g.allStaging = appendChunkFeerates g.staging ++
      appendChunkFeerates (g.main.filter (!g.conflicting ·)) := flatMap_append
  have hperm : (appendChunkFeerates g.main).Perm (appendChunkFeerates g.getConflicts ++
      appendChunkFeerates (g.main.filter (!g.conflicting ·))) := by
    refine .trans ?_ (.of_eq flatMap_append)
    exact (((g.getConflicts_perm.append_right _).trans
      (filter_append_perm g.conflicting g.main)).flatMap_right _).symm
  have hsame := compareChunks_append (sortedFrom_sortFeerates (.refl _))
    (sortedFrom_sortFeerates (.refl _)) (sortedFrom_sortFeerates (.of_eq hsplit))
    (sortedFrom_sortFeerates hperm) (hsplit ▸ hstaging) (hmain.perm hperm.symm)
  exact congrArg (fun o => if o ≠ some .gt then some (DiagramCheckError.failure, _) else none) hsame

def loneCluster (t : ℕ) (fee : ℤ) : Cluster ℕ :=
  ⟨t, true, fun _ => ⟨fee, 1⟩, fun t => [t], [t], true, by simp, by simp [maxClusterCountLimit],
    by simp, by simp, ⟨[t], .refl _, by simp⟩, by simp, by simp⟩

/-- Of two clusters one is replaced by one that pays more. -/
def replacedLevels : Levels ℕ where
  main := [loneCluster 0 1, loneCluster 1 3]
  staging := [loneCluster 0 2]
  removed := []
  compatible := ⟨by decide, by decide⟩

theorem compareChunks_common_replaced :
    compareChunks [⟨1, 1⟩] [⟨2, 1⟩] = compareChunks [⟨3, 1⟩, ⟨1, 1⟩] [⟨3, 1⟩, ⟨2, 1⟩] ∧
      improvesFeerateDiagram (.ok replacedLevels.getMainStagingDiagrams) =
        improvesFeerateDiagram (.ok replacedLevels.completeDiagrams) :=
  ⟨(compareChunks_common (τ := ℕ)).1 [⟨1, 1⟩] [⟨2, 1⟩] [⟨3, 1⟩] _ _ _ _ ⟨.refl _, by simp⟩
    ⟨.refl _, by simp⟩ ⟨.swap .., by decide +kernel⟩ ⟨.swap .., by decide +kernel⟩
    ⟨by decide, by decide⟩ ⟨by decide, by decide⟩,
    compareChunks_common.2 replacedLevels ⟨by decide, by decide⟩ ⟨by decide, by decide⟩⟩

end Quarlcoin.TxGraph
