import Mathlib.Algebra.Group.Nat.Even
import Mathlib.Data.List.Nodup
import Mathlib.Data.Nat.Pairing
import Mathlib.Tactic.Ring
/-!
# Merkle roots

`ComputeMerkleRoot` of `consensus/merkle.cpp`, over any function that hashes two hashes. A
level with an odd number of hashes repeats its last one; the function reports two equal
neighbours that are hashed together. `computeMerkleRoot_injective` says when a root stands
for one list, by one walk down the levels of both trees.
-/

namespace Quarlcoin.Merkle

open List Prod Nat

variable {H : Type}

/-! ## The model -/

/-- The pairs of a level that are hashed, after an odd level has repeated its
last hash. -/
def pairs : List H → List (H × H)
  | a :: b :: l => (a, b) :: pairs l
  | [a] => [(a, a)]
  | [] => []

def nextLevel (hash : H → H → H) (l : List H) : List H := (pairs l).map fun p => hash p.1 p.2

section

variable [DecidableEq H]

def mutatedLevel : List H → Bool
  | a :: b :: l => a == b || mutatedLevel l
  | _ => false

/-- The loop over the levels: the hash that is left, and whether a mutation was seen. -/
def merkleLoop (hash : H → H → H) : ℕ → List H → Bool → List H × Bool
  | 0, hashes, mutation => (hashes, mutation)
  | fuel + 1, hashes, mutation =>
    if hashes.length > 1 then
      merkleLoop hash fuel (nextLevel hash hashes) (mutation || mutatedLevel hashes)
    else (hashes, mutation)

/-- `ComputeMerkleRoot`: the root, `zero` for no hashes, and `mutated`. -/
def computeMerkleRoot (hash : H → H → H) (zero : H) (hashes : List H) : H × Bool :=
  let result := merkleLoop hash hashes.length hashes false
  (result.1.headD zero, result.2)

end

/-! ## One level -/

theorem length_pairs (l : List H) : (pairs l).length = (l.length + 1) / 2 := by
  induction l using pairs.induct with
  | case1 a b l ih => simp only [pairs, length_cons]; omega
  | case2 a => simp [pairs]
  | case3 => simp [pairs]

@[simp] theorem length_nextLevel (hash : H → H → H) (l : List H) :
    (nextLevel hash l).length = (l.length + 1) / 2 := by
  rw [nextLevel, length_map, length_pairs]

theorem map_injOn {β : Type} {f : β → H} {l m : List β} (hinj : Set.InjOn f {b | b ∈ l ∨ b ∈ m})
    (h : l.map f = m.map f) : l = m := by
  induction l generalizing m with
  | nil => exact (map_eq_nil_iff.1 h.symm).symm
  | cons b l ih =>
    obtain ⟨c, m, rfl, hc, hm⟩ := map_eq_cons_iff.1 h.symm
    rw [hinj (by simp) (by simp) hc.symm, ih (hinj.mono ?_) hm.symm]
    rintro d (hd | hd)
    · exact .inl (mem_cons_of_mem _ hd)
    · exact .inr (mem_cons_of_mem _ hd)

theorem map_fst_pairs_sublist (l : List H) : ((pairs l).map fst).Sublist l := by
  induction l using pairs.induct with
  | case1 a b l ih => exact (ih.cons b).cons_cons a
  | case2 a => exact List.Sublist.refl _
  | case3 => exact List.Sublist.refl _

variable {hash : H → H → H} {l m : List H}

theorem nodup_nextLevel (hinj : Function.Injective2 hash) (h : l.Nodup) :
    (nextLevel hash l).Nodup := by
  have hpairs : (pairs l).Nodup := List.Nodup.of_map _ ((map_fst_pairs_sublist l).nodup h)
  exact hpairs.map fun p q heq => Prod.ext (hinj heq).1 (hinj heq).2

/-- The levels, counted from the leaves. -/
def levelAt (hash : H → H → H) (l : List H) (i : ℕ) : List H := (nextLevel hash)^[i] l

@[simp] theorem levelAt_zero (hash : H → H → H) (l : List H) : levelAt hash l 0 = l := rfl

theorem levelAt_succ (hash : H → H → H) (l : List H) (i : ℕ) :
    levelAt hash l (i + 1) = nextLevel hash (levelAt hash l i) :=
  Function.iterate_succ_apply' ..

theorem length_levelAt_eq (h : l.length = m.length) (i : ℕ) :
    (levelAt hash l i).length = (levelAt hash m i).length := by
  induction i with
  | zero => exact h
  | succ i ih => rw [levelAt_succ, levelAt_succ, length_nextLevel, length_nextLevel, ih]

/-- A pair that is hashed on the way to the root. -/
def Hashed (hash : H → H → H) (l : List H) (p : H × H) : Prop :=
  ∃ i, 1 < (levelAt hash l i).length ∧ p ∈ pairs (levelAt hash l i)

theorem mem_levelAt_succ {i : ℕ} {a : H} (hlong : 1 < (levelAt hash l i).length)
    (ha : a ∈ levelAt hash l (i + 1)) : ∃ p, Hashed hash l p ∧ hash p.1 p.2 = a := by
  rw [levelAt_succ] at ha
  obtain ⟨p, hp, rfl⟩ := mem_map.1 ha
  exact ⟨p, ⟨i, hlong, hp⟩, rfl⟩

variable [DecidableEq H] {x y : List H} {fuel d e : ℕ} {root : H} {b c : Bool}

/-- The pairs tell the level, up to a last hash that is repeated or not. -/
theorem eq_of_pairs_eq (h : pairs x = pairs y)
    (hshape : x.length = y.length ∨ (mutatedLevel x = false ∧ mutatedLevel y = false)) : x = y := by
  induction x using pairs.induct generalizing y with
  | case1 a b x ih =>
    match y with
    | [] => exact absurd h (by simp [pairs])
    | [c] =>
      -- the one pair of `[c]` is a pair of equals, so the other list shows it
      obtain ⟨hpair, -⟩ := cons.inj h
      obtain ⟨rfl, rfl⟩ := mk.inj hpair
      rcases hshape with hlen | hmut
      · exact absurd hlen (by simp)
      · exact absurd hmut.1 (by simp [mutatedLevel])
    | c :: d :: y =>
      obtain ⟨hpair, hrest⟩ := cons.inj h
      obtain ⟨rfl, rfl⟩ := mk.inj hpair
      rw [ih hrest]
      refine hshape.imp (fun hlen => by simpa using hlen) fun hmut => ?_
      simp only [mutatedLevel, Bool.or_eq_false_iff] at hmut
      exact ⟨hmut.1.2, hmut.2.2⟩
  | case2 a =>
    match y with
    | [] => exact absurd h (by simp [pairs])
    | [c] =>
      obtain ⟨hpair, -⟩ := cons.inj h
      rw [(mk.inj hpair).1]
    | c :: d :: y =>
      obtain ⟨hpair, hrest⟩ := cons.inj h
      obtain ⟨rfl, rfl⟩ := mk.inj hpair
      rcases hshape with hlen | hmut
      · exact absurd hlen (by simp)
      · exact absurd hmut.2 (by simp [mutatedLevel])
  | case3 =>
    match y with
    | [] => rfl
    | [c] => exact absurd h (by simp [pairs])
    | c :: d :: y => exact absurd h (by simp [pairs])

/-! ## All levels -/

/-- The loop stopped at level `d`, below which there was always more than one hash. -/
structure Climbs (hash : H → H → H) (l : List H) (root : H) (mutated : Bool) (d : ℕ) : Prop where
  top : levelAt hash l d = [root]
  below : ∀ i < d, 1 < (levelAt hash l i).length
  unmutated : mutated = false → ∀ i < d, mutatedLevel (levelAt hash l i) = false

theorem merkleLoop_climbs (hne : l ≠ []) (hfuel : l.length ≤ fuel) (mutation : Bool) :
    ∃ root d, (merkleLoop hash fuel l mutation).1 = [root] ∧
      Climbs hash l root (merkleLoop hash fuel l mutation).2 d ∧
        ((merkleLoop hash fuel l mutation).2 = false → mutation = false) := by
  have hpos := length_pos_iff.2 hne
  induction fuel generalizing l mutation with
  | zero => omega
  | succ fuel ih =>
    rw [merkleLoop]
    split_ifs with hlong
    · have hlen := length_nextLevel hash l
      obtain ⟨root, d, hroot, hclimb, hmut⟩ := ih (l := nextLevel hash l)
        (ne_nil_of_length_pos (by omega)) (by omega) (mutation || mutatedLevel l) (by omega)
      refine ⟨root, d + 1, hroot, ⟨hclimb.top, ?_, ?_⟩, fun hm => ?_⟩
      · rintro (_ | i) hi
        · exact hlong
        · exact hclimb.below i (by omega)
      · rintro hm (_ | i) hi
        · exact (Bool.or_eq_false_iff.1 (hmut hm)).2
        · exact hclimb.unmutated hm i (by omega)
      · exact (Bool.or_eq_false_iff.1 (hmut hm)).1
    · obtain ⟨a, rfl⟩ := length_eq_one_iff.1 (show l.length = 1 by omega)
      exact ⟨a, 0, rfl, ⟨rfl, fun i hi => absurd hi (not_lt_zero _),
        fun _ i hi => absurd hi (not_lt_zero _)⟩, id⟩

theorem computeMerkleRoot_climbs (hash : H → H → H) (zero : H) (hne : l ≠ []) :
    ∃ d, Climbs hash l (computeMerkleRoot hash zero l).1 (computeMerkleRoot hash zero l).2 d := by
  obtain ⟨root, d, hroot, hclimb, -⟩ := merkleLoop_climbs hne (le_refl l.length) false
  refine ⟨d, ?_⟩
  rw [computeMerkleRoot]
  rw [hroot]
  exact hclimb

/-- **Down the two trees**, from their roots: the levels at one distance from
the top are the same. -/
theorem Climbs.levels_eq (hl : Climbs hash l root b d) (hm : Climbs hash m root c e)
    (hinj : Set.InjOn (fun p : H × H => hash p.1 p.2) {p | Hashed hash l p ∨ Hashed hash m p})
    (hshape : (d = e ∧ l.length = m.length) ∨ (b = false ∧ c = false)) {k : ℕ} (hkd : k ≤ d)
    (hke : k ≤ e) : levelAt hash l (d - k) = levelAt hash m (e - k) := by
  induction k with
  | zero => rw [Nat.sub_zero, Nat.sub_zero, hl.top, hm.top]
  | succ k ih =>
    have hd : d - k = d - (k + 1) + 1 := by omega
    have he : e - k = e - (k + 1) + 1 := by omega
    have habove := ih (by omega) (by omega)
    rw [hd, he, levelAt_succ, levelAt_succ] at habove
    have hlong := hl.below (d - (k + 1)) (by omega)
    have hlong' := hm.below (e - (k + 1)) (by omega)
    refine eq_of_pairs_eq (map_injOn (hinj.mono ?_) habove) ?_
    · rintro p (hp | hp)
      · exact .inl ⟨_, hlong, hp⟩
      · exact .inr ⟨_, hlong', hp⟩
    · rcases hshape with ⟨rfl, hlen⟩ | ⟨rfl, rfl⟩
      · exact .inl (length_levelAt_eq hlen _)
      · exact .inr ⟨hl.unmutated rfl _ (by omega), hm.unmutated rfl _ (by omega)⟩

theorem Climbs.height_eq {root' : H} (hl : Climbs hash l root b d)
    (hm : Climbs hash m root' c e) (hlen : l.length = m.length) : d = e := by
  have htop : (levelAt hash l d).length = 1 := by rw [hl.top, length_singleton]
  have htop' : (levelAt hash m e).length = 1 := by rw [hm.top, length_singleton]
  rcases lt_trichotomy d e with hlt | heq | hlt
  · have := hm.below d hlt
    rw [← length_levelAt_eq hlen] at this
    omega
  · exact heq
  · have := hl.below e hlt
    rw [length_levelAt_eq hlen] at this
    omega

/-- **A root stands for one list of leaves**, where no hashed pairs collide: for lists of one
length, and for lists without mutation or a hash of a pair among the leaves. -/
theorem computeMerkleRoot_injective (zero : H) (hl : l ≠ []) (hm : m ≠ [])
    (hinj : Set.InjOn (fun p : H × H => hash p.1 p.2) {p | Hashed hash l p ∨ Hashed hash m p})
    (hshape : l.length = m.length ∨ ((computeMerkleRoot hash zero l).2 = false ∧
      (computeMerkleRoot hash zero m).2 = false ∧
        ∀ p, Hashed hash l p ∨ Hashed hash m p → hash p.1 p.2 ∉ l ∧ hash p.1 p.2 ∉ m))
    (hroot : (computeMerkleRoot hash zero l).1 = (computeMerkleRoot hash zero m).1) : l = m := by
  obtain ⟨d, hld⟩ := computeMerkleRoot_climbs hash zero hl
  obtain ⟨e, hme⟩ := computeMerkleRoot_climbs hash zero hm
  rw [← hroot] at hme
  rcases hshape with hlen | ⟨hlmut, hmmut, hleaf⟩
  · obtain rfl := hld.height_eq hme hlen
    have := hld.levels_eq hme hinj (.inl ⟨rfl, hlen⟩) le_rfl le_rfl
    rwa [Nat.sub_self] at this
  have hsame := fun k => hld.levels_eq (k := k) hme hinj (.inr ⟨hlmut, hmmut⟩)
  rcases lt_trichotomy d e with hlt | rfl | hlt
  · -- the leaves of the lower tree would be hashes in the higher one
    have hk := hsame d le_rfl hlt.le
    rw [Nat.sub_self, levelAt_zero, show e - d = e - d - 1 + 1 by omega] at hk
    obtain ⟨a, ha⟩ := exists_mem_of_ne_nil l hl
    obtain ⟨p, hp, rfl⟩ := mem_levelAt_succ (hme.below _ (by omega)) (hk ▸ ha)
    exact absurd ha (hleaf p (.inr hp)).1
  · have hk := hsame d le_rfl le_rfl
    rwa [Nat.sub_self] at hk
  · have hk := hsame e hlt.le le_rfl
    rw [Nat.sub_self, levelAt_zero, show d - e = d - e - 1 + 1 by omega] at hk
    obtain ⟨a, ha⟩ := exists_mem_of_ne_nil m hm
    obtain ⟨p, hp, rfl⟩ := mem_levelAt_succ (hld.below _ (by omega)) (hk ▸ ha)
    exact absurd ha (hleaf p (.inl hp)).2

/-! ## Distinct leaves -/

theorem mutatedLevel_of_nodup (h : l.Nodup) : mutatedLevel l = false := by
  induction l using mutatedLevel.induct with
  | case1 a b l ih =>
    obtain ⟨hne, hrest⟩ := nodup_cons.1 h
    rw [mutatedLevel, ih (nodup_cons.1 hrest).2, Bool.or_false]
    exact beq_eq_false_iff_ne.2 fun heq => hne (heq ▸ mem_cons_self)
  | case2 l hl =>
    unfold mutatedLevel
    split
    · exact absurd rfl (hl _ _ _)
    · rfl

theorem merkleLoop_of_nodup (hinj : Function.Injective2 hash) (h : l.Nodup)
    (mutation : Bool) : (merkleLoop hash fuel l mutation).2 = mutation := by
  induction fuel generalizing l mutation with
  | zero => rfl
  | succ fuel ih =>
    rw [merkleLoop]
    split
    · rw [ih (nodup_nextLevel hinj h), mutatedLevel_of_nodup h, Bool.or_false]
    · rfl

/-- **Duplication is detected exactly**: of two lists with one root one is reported, and a list of
distinct leaves is not. -/
theorem computeMerkleRoot_duplication (hash : H → H → H) (zero : H) (isLeaf : H → Prop)
    (hinj : Function.Injective2 hash) (hleaf : ∀ a b, ¬ isLeaf (hash a b)) :
    (∀ l m : List H, l ≠ [] → m ≠ [] → (∀ a ∈ l, isLeaf a) → (∀ a ∈ m, isLeaf a) → l ≠ m →
      (computeMerkleRoot hash zero l).1 = (computeMerkleRoot hash zero m).1 →
      (computeMerkleRoot hash zero l).2 = true ∨ (computeMerkleRoot hash zero m).2 = true) ∧
    ∀ l : List H, (∀ a ∈ l, isLeaf a) → l.Nodup → (computeMerkleRoot hash zero l).2 = false := by
  refine ⟨fun l m hl hm hleafl hleafm hne hroot => ?_, fun l _ h => merkleLoop_of_nodup hinj h false⟩
  by_contra hmut
  rw [not_or, Bool.not_eq_true, Bool.not_eq_true] at hmut
  refine hne (computeMerkleRoot_injective zero hl hm ?_ (.inr ⟨hmut.1, hmut.2, fun p _ => ?_⟩) hroot)
  · exact fun p _ q _ heq => Prod.ext (hinj heq).1 (hinj heq).2
  · exact ⟨fun hmem => hleaf _ _ (hleafl _ hmem), fun hmem => hleaf _ _ (hleafm _ hmem)⟩

/-- A last leaf that is repeated is reported, for a hash whose values are odd. -/
theorem repeatedLeaf_reported :
    (computeMerkleRoot (fun a b => 2 * pair a b + 1) 0 [0, 2, 4, 4]).2 = true ∨
      (computeMerkleRoot (fun a b => 2 * pair a b + 1) 0 [0, 2, 4]).2 = true := by
  refine (computeMerkleRoot_duplication _ 0 Even (fun a b c d heq => ?_) (fun a b hodd => ?_)).1 _ _
    (by simp) (by simp) (by decide) (by decide) (by decide) rfl
  · exact pair_eq_pair.1 (by omega)
  · rw [even_iff] at hodd
    omega

end Quarlcoin.Merkle
