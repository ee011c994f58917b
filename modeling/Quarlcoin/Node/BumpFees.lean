import Quarlcoin.Node.Template
import Mathlib.Algebra.BigOperators.Ring.Finset
import Mathlib.Tactic.Linarith
/-!
# Bump fees of a set and of its members

A transaction that was not mined is charged for the deficit of its remaining ancestors, or
for its own if that is larger, and a set for the deficit of all of them together. An
ancestor with a surplus that several outpoints share lowers the sum of their charges several
times, the charge of the set once.
-/

namespace Quarlcoin

open Arith Reach List

namespace TxPool

variable (pool : TxPool)

/-- What some transactions lack for a target feerate. -/
def deficit (target : FeeFrac) (S : Finset Uint256) : ℤ :=
  getFee target (∑ x ∈ S, (pool.entry x).vsize) - ∑ x ∈ S, (pool.entry x).modifiedFee

variable (outpoints : List OutPoint) (target : FeeFrac)

/-- What is left of the clusters once everything that reaches the target has been mined. -/
def remaining : List Uint256 :=
  ((pool.miniMiner outpoints).buildMockTemplate (some target)).entries

/-- The remaining ancestors of all outpoints together. -/
noncomputable def sharedAncestors : Finset Uint256 :=
  ((outpoints.map (·.hash)).filter (· ∈ pool.remaining outpoints target)).toFinset.biUnion
    (pool.ancestorsIn (pool.remaining outpoints target))

/-- What an outpoint is charged on its own: for its remaining ancestors, or for itself if that is
more. -/
noncomputable def ownCharge (o : OutPoint) : ℤ :=
  if o.hash ∈ pool.remaining outpoints target then
    max (pool.deficit target (pool.ancestorsIn (pool.remaining outpoints target) o.hash))
      (pool.deficit target {o.hash})
  else 0

end TxPool

/-! ## The charges -/

namespace MiniMiner

variable {pool : TxPool} {m : MiniMiner} {outpoints : List OutPoint} {target : FeeFrac}
  {t x : Uint256} {n : ℕ} {work processed ancestors : List Uint256}

theorem Consistent.bumpFee_eq (h : Consistent pool m) (ht : t ∈ m.entries) :
    bumpFee target (m.entry t) =
      max (pool.deficit target (pool.ancestorsIn m.entries t)) (pool.deficit target {t}) := by
  rw [bumpFee, h.vsize_sum t ht, h.fee_sum t ht, h.vsize, h.fee, TxPool.deficit, TxPool.deficit,
    Finset.sum_singleton, Finset.sum_singleton]

/-- **The loop of the total** collects what waits and what it has processed. -/
theorem mem_relatedLoop (h : Searching m.parents m.entries work processed)
    (hn : m.entries.length ≤ n + processed.length)
    (hanc : ∀ x, x ∈ ancestors ↔ x ∈ processed ∨ x ∈ work) :
    x ∈ m.relatedLoop n work processed ancestors ↔ x ∈ visit m.parents n work processed := by
  induction n generalizing work processed ancestors with
  | zero =>
    obtain ⟨-, -, -, hwork⟩ := h.visit_spec m.closed_parents hn
    exact (hanc x).trans ⟨fun hx => hx.elim id fun hx => hwork hx, .inl⟩
  | succ n ih =>
    cases work with
    | nil => exact (hanc x).trans (or_iff_left not_mem_nil)
    | cons t work =>
      have hstep := h.visit_one m.closed_parents
      have hwork : (work ++ (m.parents t).filter (· ∉ processed)).filter (· ≠ t) =
          (work ++ m.parents t).filter (· ∉ t :: processed) := by
        rw [filter_append, filter_append]
        congr 1
        · refine filter_congr fun b hb => ?_
          have hfresh := h.fresh b (mem_cons_of_mem t hb)
          simp [hfresh]
        · simp
      simp only [relatedLoop]
      rw [hwork]
      refine ih hstep (by rw [length_cons]; omega) fun y => ?_
      rw [mem_union_iff, hanc]
      simp only [mem_cons, mem_filter, mem_append, decide_eq_true_eq]
      tauto

theorem nodup_relatedLoop (h : ancestors.Nodup) :
    (m.relatedLoop n work processed ancestors).Nodup := by
  induction n generalizing work processed ancestors with
  | zero => exact h
  | succ n ih =>
    cases work with
    | nil => exact h
    | cons t work => exact ih (h.union _)

section

variable (hready : (pool.miniMiner outpoints).readyToCalculate = true)
include hready

theorem built_spec (target : FeeFrac) :
    let m := (pool.miniMiner outpoints).buildMockTemplate (some target)
    Consistent pool m ∧ Mined (pool.miniMiner outpoints) m := by
  have hcopies := TxPool.miniMiner_spec hready
  obtain ⟨h, hmined⟩ := hcopies.consistent.buildMockTemplateLoop (by simp [hcopies.inBlock])
    (some target)
    (pool.miniMiner outpoints).entries.length
  exact ⟨⟨h.vin, h.vsize, h.fee, h.reaches_iff, h.vsize_sum, h.fee_sum, h.nodup,
    h.mem_descendantSet⟩, ⟨hmined.requested, hmined.bumpFees, hmined.mem_or, hmined.inBlock,
    hmined.entries_subset, hmined.inBlock_subset⟩⟩

/-- **Each outpoint on its own.** -/
theorem calculateBumpFees_eq {o : OutPoint} (ho : o ∈ outpoints) :
    (pool.miniMiner outpoints).calculateBumpFees target o =
      some (pool.ownCharge outpoints target o) := by
  have hlisted := (TxPool.miniMiner_spec hready).listed
  obtain ⟨h, hmined⟩ := built_spec hready target
  rw [calculateBumpFees, if_pos hready, foldl_discharge, foldl_chargeEntry]
  unfold TxPool.ownCharge TxPool.remaining
  generalize (pool.miniMiner outpoints).buildMockTemplate (some target) = m at h hmined
  have hcharged : o.hash ∉ m.inBlock → o ∈ m.requestedOutpoints →
      o ∈ m.requestedOutpoints.filter (·.hash ∉ m.inBlock) :=
    fun hnot hreq => mem_filter.2 ⟨hreq, decide_eq_true hnot⟩
  simp only [hmined.bumpFees]
  rcases hlisted o ho with ⟨hfee, -, hnot⟩ | ⟨hfee, hreq, hmem⟩
  · rw [hfee, if_neg fun hin => hnot (hmined.entries_subset hin)]
    rfl
  rw [← hmined.requested] at hreq
  rcases hmined.mem_or _ hmem with hblock | hleft
  · rw [hfee, if_pos ⟨hreq, hblock⟩, if_neg (hmined.inBlock _ hblock)]
    rfl
  have hnot := fun hin => hmined.inBlock _ hin hleft
  have hin := hcharged hnot hreq
  rw [hfee, if_neg fun h => hnot h.2, if_pos ⟨hin, mem_dedup.2
    (mem_map_of_mem hin), hleft⟩, if_pos hleft, h.bumpFee_eq hleft]
  rfl

/-- **All of them together.** -/
theorem calculateTotalBumpFees_eq : (pool.miniMiner outpoints).calculateTotalBumpFees target =
      some (pool.deficit target (pool.sharedAncestors outpoints target)) := by
  have hlisted := (TxPool.miniMiner_spec hready).listed
  have hsub := (TxPool.miniMiner_spec hready).requested
  obtain ⟨h, hmined⟩ := built_spec hready target
  rw [calculateTotalBumpFees, if_pos hready]
  unfold TxPool.sharedAncestors TxPool.remaining
  generalize (pool.miniMiner outpoints).buildMockTemplate (some target) = m at h hmined
  simp only
  set start := ((m.requestedOutpoints.map (·.hash)).filter
    fun t => t ∉ m.inBlock ∧ t ∈ m.entries).dedup with hstart
  have hmem : ∀ t, t ∈ start ↔ t ∈ (outpoints.map (·.hash)).filter (· ∈ m.entries) := by
    intro t
    simp only [hstart, mem_dedup, mem_filter, mem_map, decide_eq_true_eq, hmined.requested]
    constructor
    · rintro ⟨⟨o, ho, rfl⟩, -, hin⟩
      exact ⟨⟨o, hsub o ho, rfl⟩, hin⟩
    · rintro ⟨⟨o, ho, rfl⟩, hin⟩
      refine ⟨⟨o, ?_, rfl⟩, fun hblock => hmined.inBlock _ hblock hin, hin⟩
      rcases hlisted o ho with ⟨-, -, hnot⟩ | ⟨-, hreq, -⟩
      · exact absurd (hmined.entries_subset hin) hnot
      · exact hreq
  have hentries : start ⊆ m.entries := fun t ht =>
    of_decide_eq_true (mem_filter.1 ((hmem t).1 ht)).2
  have hfinset : (m.relatedLoop m.entries.length start [] start).toFinset =
      ((outpoints.map (·.hash)).filter (· ∈ m.entries)).toFinset.biUnion
        (pool.ancestorsIn m.entries) := by
    ext x
    rw [mem_toFinset, mem_relatedLoop (Searching.start hentries) (Nat.le_add_right _ _)
      (by simp), mem_visit_iff m.closed_parents hentries le_rfl]
    simp only [Finset.mem_biUnion, mem_toFinset, TxPool.mem_ancestorsIn, ← hmem]
    constructor
    · rintro ⟨a, ha, hax⟩
      exact ⟨a, ha, ((h.reaches_iff a (hentries ha) x).1 hax).symm⟩
    · rintro ⟨a, ha, hax⟩
      exact ⟨a, ha, (h.reaches_iff a (hentries ha) x).2 hax.symm⟩
  have hnodup : (m.relatedLoop m.entries.length start [] start).Nodup :=
    nodup_relatedLoop (nodup_dedup _)
  rw [TxPool.deficit, ← hfinset, sum_toFinset _ hnodup, sum_toFinset _ hnodup]
  simp only [h.vsize, h.fee]

end

end MiniMiner

/-! ## Where nothing pays more than the target -/

namespace TxPool

variable (pool : TxPool) (target : FeeFrac)

/-- What a transaction lacks for a target feerate, in parts of one by its size. -/
def shortfall (t : Uint256) : ℤ :=
  target.fee * (pool.entry t).vsize - target.size * (pool.entry t).modifiedFee

/-- **No transaction pays more than the target.** -/
structure NoSurplus : Prop where
  size_pos : 0 < target.size
  fee_nonneg : 0 ≤ target.fee
  vsize_nonneg : ∀ t ∈ pool.txids, 0 ≤ (pool.entry t).vsize
  shortfall_nonneg : ∀ t ∈ pool.txids, 0 ≤ pool.shortfall target t

/-- **No transaction of the mempool spends** one of the outpoints. -/
def Unspent (outpoints : List OutPoint) : Prop :=
  ∀ o ∈ outpoints, o.hash ∈ pool.txids → pool.getConflictTx o = none

variable {pool target} {outpoints : List OutPoint} {t x : Uint256}

/-- `GetFee` rounds up. -/
theorem getFee_spec (h : pool.NoSurplus target) {v : ℤ} (hv : 0 ≤ v) :
    target.fee * v ≤ target.size * getFee target v ∧
      target.size * (getFee target v - 1) < target.fee * v := by
  have hsize := h.size_pos
  have hpos := mul_nonneg h.fee_nonneg hv
  have heq : getFee target v = target.evaluateFeeUp v := by
    rw [getFee, if_neg (by simp [FeeFrac.isEmpty, hsize.ne']),
      if_neg fun h' => absurd h.fee_nonneg h'.2.2.not_ge]
  rw [heq, FeeFrac.evaluateFeeUp]
  split
  · have hdiv := Int.mul_ediv_add_emod (target.fee * v + (target.size - 1)) target.size
    have hlt := Int.emod_lt_of_pos (target.fee * v + (target.size - 1)) hsize
    have hge := Int.emod_nonneg (target.fee * v + (target.size - 1)) hsize.ne'
    rw [mul_sub, mul_one]
    constructor <;> linarith
  · have hdiv := Int.mul_tdiv_add_tmod (target.fee * v) target.size
    have hlt := Int.tmod_lt_of_pos (target.fee * v) hsize
    have hge := Int.tmod_nonneg target.size hpos
    dsimp only
    split
    · rw [mul_sub, mul_add, mul_one]
      constructor <;> linarith
    · rw [mul_sub, mul_add, mul_one, mul_zero]
      constructor <;> linarith

/-- The deficit of some transactions is what they lack together, rounded up. -/
theorem NoSurplus.deficit_spec (h : pool.NoSurplus target) {S : Finset Uint256}
    (hS : ∀ x ∈ S, x ∈ pool.txids) :
    ∑ x ∈ S, pool.shortfall target x ≤ target.size * pool.deficit target S ∧
      target.size * (pool.deficit target S - 1) < ∑ x ∈ S, pool.shortfall target x := by
  obtain ⟨hle, hlt⟩ := getFee_spec h (Finset.sum_nonneg fun x hx => h.vsize_nonneg x (hS x hx))
  simp only [shortfall, Finset.sum_sub_distrib, ← Finset.mul_sum, deficit]
  rw [mul_sub] at hlt
  rw [mul_sub, mul_sub, mul_sub]
  constructor <;> linarith

theorem toBeReplaced_eq_nil (h : pool.Unspent outpoints) : pool.toBeReplaced outpoints = [] := by
  rw [toBeReplaced, flatMap_eq_nil_iff]
  intro o ho
  obtain ⟨ho, hpool⟩ := mem_filter.1 ho
  rw [h o ho (of_decide_eq_true hpool)]
  rfl

/-- A package that pays the target lacks nothing, since none of it pays more. -/
theorem NoSurplus.package_eq_zero (h : pool.NoSurplus target) {m : MiniMiner} {best : Uint256}
    (hcons : MiniMiner.Consistent pool m) (hsub : m.entries ⊆ pool.txids)
    (hbest : best ∈ m.entries) (hreached : ¬ m.belowTarget (some target) best) :
    ∀ x ∈ pool.ancestorsIn m.entries best, pool.shortfall target x = 0 := by
  have hS : ∀ x ∈ pool.ancestorsIn m.entries best, x ∈ pool.txids :=
    fun x hx => hsub (mem_ancestorsIn.1 hx).1
  have hpaid : pool.deficit target (pool.ancestorsIn m.entries best) ≤ 0 := by
    rw [MiniMiner.belowTarget, Option.any_some, decide_eq_true_eq, not_lt,
      hcons.vsize_sum best hbest, hcons.fee_sum best hbest] at hreached
    exact Int.sub_nonpos_of_le hreached
  have hsum := (h.deficit_spec hS).1.trans (mul_nonpos_of_nonneg_of_nonpos h.size_pos.le hpaid)
  have hnonneg : ∀ x ∈ pool.ancestorsIn m.entries best, 0 ≤ pool.shortfall target x :=
    fun x hx => h.shortfall_nonneg x (hS x hx)
  exact (Finset.sum_eq_zero_iff_of_nonneg hnonneg).1 (hsum.antisymm (Finset.sum_nonneg hnonneg))

/-- **Only what lacks nothing is mined**, and its ancestors lack nothing either. -/
theorem NoSurplus.shortfall_eq_zero (h : pool.NoSurplus target) (n : ℕ) {m : MiniMiner}
    (hcons : MiniMiner.Consistent pool m) (hsub : m.entries ⊆ pool.txids) (ht : t ∈ m.entries)
    (hout : t ∉ (MiniMiner.buildMockTemplateLoop (some target) n m).entries)
    (hx : x ∈ pool.ancestorsIn m.entries t) : pool.shortfall target x = 0 := by
  induction n generalizing m with
  | zero => exact absurd ht hout
  | succ n ih =>
    unfold MiniMiner.buildMockTemplateLoop at hout
    split at hout
    · exact absurd ht hout
    next best hbest =>
    split at hout
    · exact absurd ht hout
    next hreached =>
    have hbest := Choice.best_mem hbest
    have hmem : ∀ y, y ∈ m.ancestorsOf best ↔ y ∈ pool.ancestorsIn m.entries best := by
      intro y
      rw [MiniMiner.mem_ancestorsOf hbest, hcons.reaches_iff best hbest, mem_ancestorsIn, and_comm]
    obtain ⟨hxin, hreach⟩ := mem_ancestorsIn.1 hx
    by_cases hxS : x ∈ m.ancestorsOf best
    · exact h.package_eq_zero hcons hsub hbest hreached x ((hmem x).1 hxS)
    have hentries : (m.deleteAncestorPackage (m.ancestorsOf best)).entries =
        m.entries.filter (· ∉ m.ancestorsOf best) := by
      rw [hcons.deleteAncestorPackage_eq (MiniMiner.ancestorsOf_subset hbest)]
    -- an ancestor of the package is in it, so the transaction is not
    have htS : t ∉ m.ancestorsOf best := fun htS =>
      hxS ((hmem x).2 (mem_ancestorsIn.2
        ⟨hxin, (mem_ancestorsIn.1 ((hmem t).1 htS)).2.trans hreach⟩))
    refine ih (hcons.deletePackage hbest) ?_ ?_ hout ?_
    · rw [hentries]
      exact fun y hy => hsub (mem_of_mem_filter hy)
    · rw [hentries]
      exact mem_filter.2 ⟨ht, decide_eq_true htS⟩
    · rw [hentries]
      exact mem_ancestorsIn.2 ⟨mem_filter.2 ⟨hxin, decide_eq_true hxS⟩, hreach⟩

section

variable (hready : (pool.miniMiner outpoints).readyToCalculate = true)
include hready

theorem remaining_subset : pool.remaining outpoints target ⊆ pool.txids :=
  fun _ hx => (miniMiner_spec hready).entries
    ((MiniMiner.built_spec hready target).2.entries_subset hx)

variable (hns : pool.NoSurplus target)
include hns

/-- **An outpoint is charged for all its ancestors**, those that were mined included. -/
theorem le_ownCharge (hunspent : pool.Unspent outpoints) {o : OutPoint}
    (ho : o ∈ outpoints) (hpool : o.hash ∈ pool.txids) :
    ∑ x ∈ pool.ancestorsIn pool.txids o.hash, pool.shortfall target x ≤
      target.size * pool.ownCharge outpoints target o := by
  have hcopies := miniMiner_spec hready
  have hentry : o.hash ∈ (pool.miniMiner outpoints).entries :=
    hcopies.kept o ho hpool (by rw [toBeReplaced_eq_nil hunspent]; exact not_mem_nil)
  have hall : ∀ x ∈ pool.ancestorsIn pool.txids o.hash,
      x ∈ pool.ancestorsIn (pool.miniMiner outpoints).entries o.hash := fun x hx =>
    mem_ancestorsIn.2 ⟨(mem_ancestorsIn.1 hx).2.mem_of_closed hcopies.closed hentry,
      (mem_ancestorsIn.1 hx).2⟩
  have hzero : ∀ {t x : Uint256}, t ∈ (pool.miniMiner outpoints).entries →
      t ∉ pool.remaining outpoints target →
      x ∈ pool.ancestorsIn (pool.miniMiner outpoints).entries t → pool.shortfall target x = 0 :=
    fun ht hout hx => hns.shortfall_eq_zero _ hcopies.consistent hcopies.entries ht hout hx
  rw [ownCharge]
  split
  · next hleft =>
    have hsub : pool.ancestorsIn (pool.remaining outpoints target) o.hash ⊆
        pool.ancestorsIn pool.txids o.hash := fun x hx => mem_ancestorsIn.2
      ⟨remaining_subset hready (mem_ancestorsIn.1 hx).1, (mem_ancestorsIn.1 hx).2⟩
    rw [← Finset.sum_subset hsub fun x hx hnot => ?_]
    · have hS : ∀ x ∈ pool.ancestorsIn (pool.remaining outpoints target) o.hash,
          x ∈ pool.txids := fun x hx => remaining_subset hready (mem_ancestorsIn.1 hx).1
      exact (hns.deficit_spec hS).1.trans
        (mul_le_mul_of_nonneg_left (le_max_left _ _) hns.size_pos.le)
    · have hx' := mem_ancestorsIn.1 (hall x hx)
      refine hzero hx'.1 (fun hrem => hnot (mem_ancestorsIn.2 ⟨hrem, hx'.2⟩)) ?_
      exact mem_ancestorsIn.2 ⟨hx'.1, .refl⟩
  · next hmined =>
    rw [mul_zero]
    exact (Finset.sum_eq_zero fun x hx => hzero hentry hmined (hall x hx)).le

/-- What a union of ancestors lacks is at most what its parts lack. -/
theorem sum_biUnion_le (hunspent : pool.Unspent outpoints) {R : List Uint256}
    (hR : R ⊆ pool.txids) (os : List OutPoint) (hos : os ⊆ outpoints) :
    ∑ x ∈ ((os.map (·.hash)).filter (· ∈ R)).toFinset.biUnion (pool.ancestorsIn R),
      pool.shortfall target x ≤ target.size * (os.map (pool.ownCharge outpoints target)).sum := by
  have hnonneg : ∀ S : Finset Uint256, (∀ x ∈ S, x ∈ pool.txids) →
      0 ≤ ∑ x ∈ S, pool.shortfall target x :=
    fun S hS => Finset.sum_nonneg fun x hx => hns.shortfall_nonneg x (hS x hx)
  have hanc : ∀ a, ∀ x ∈ pool.ancestorsIn R a, x ∈ pool.txids :=
    fun a x hx => hR (mem_ancestorsIn.1 hx).1
  induction os with
  | nil => simp
  | cons o os ih =>
    obtain ⟨ho, hos⟩ := cons_subset.1 hos
    have hrest := ih hos
    have hcharge := le_ownCharge hready hns hunspent ho
    rw [map_cons, map_cons, sum_cons, mul_add]
    by_cases hin : o.hash ∈ R
    · rw [filter_cons_of_pos (by simpa using hin), toFinset_cons, Finset.biUnion_insert]
      have hinter := hnonneg (pool.ancestorsIn R o.hash ∩
        ((os.map (·.hash)).filter (· ∈ R)).toFinset.biUnion (pool.ancestorsIn R))
        fun x hx => hanc _ x (Finset.mem_inter.1 hx).1
      have hsum := @Finset.sum_union_inter _ _ (pool.ancestorsIn R o.hash)
        (((os.map (·.hash)).filter (· ∈ R)).toFinset.biUnion (pool.ancestorsIn R)) _
        (pool.shortfall target) _
      have hpart : ∑ x ∈ pool.ancestorsIn R o.hash, pool.shortfall target x ≤
          ∑ x ∈ pool.ancestorsIn pool.txids o.hash, pool.shortfall target x :=
        Finset.sum_le_sum_of_subset_of_nonneg (fun x hx => mem_ancestorsIn.2
          ⟨hanc _ x hx, (mem_ancestorsIn.1 hx).2⟩)
          fun x hx _ => hns.shortfall_nonneg x (mem_ancestorsIn.1 hx).1
      have := hcharge (hR hin)
      linarith
    · rw [filter_cons_of_neg (by simpa using hin)]
      by_cases hpool : o.hash ∈ pool.txids
      · have := (hnonneg (pool.ancestorsIn pool.txids o.hash)
          fun x hx => (mem_ancestorsIn.1 hx).1).trans (hcharge hpool)
        linarith
      · rw [ownCharge, if_neg fun hrem => hpool (remaining_subset hready hrem)]
        linarith

/-- **The set is charged no more than its members**, whose charges may have been computed
together with those of others. -/
theorem deficit_le {selected : List OutPoint} (hunspent : pool.Unspent outpoints)
    (hselected : (pool.miniMiner selected).readyToCalculate = true) (hsub : selected ⊆ outpoints) :
    pool.deficit target (pool.sharedAncestors selected target) ≤
      (selected.map (pool.ownCharge outpoints target)).sum := by
  have hR : pool.remaining selected target ⊆ pool.txids := remaining_subset hselected
  have hS : ∀ x ∈ pool.sharedAncestors selected target, x ∈ pool.txids := by
    intro x hx
    obtain ⟨a, -, hx⟩ := Finset.mem_biUnion.1 hx
    exact hR (mem_ancestorsIn.1 hx).1
  have hlt := (hns.deficit_spec hS).2.trans_le
    (sum_biUnion_le hready hns hunspent hR selected hsub)
  exact Int.sub_one_lt_iff.1 (lt_of_mul_lt_mul_left hlt hns.size_pos.le)

end

end TxPool

/-! ## The discount -/

section

variable {pool : TxPool} {listed selected : List OutPoint} {target : FeeFrac}
  (hlisted : (pool.miniMiner listed).readyToCalculate = true)
  (hselected : (pool.miniMiner selected).readyToCalculate = true) (hsub : selected ⊆ listed)
include hlisted hselected hsub

/-- **The discount of a selection** is what its coins are charged more on their
own than together. -/
theorem bumpFeeGroupDiscount_eq : bumpFeeGroupDiscount pool listed selected target =
      setBumpFeeDiscount ((selected.map (pool.ownCharge listed target)).sum -
        pool.deficit target (pool.sharedAncestors selected target)) := by
  have hmap : ∀ os ⊆ listed, os.mapM (fun o =>
      ((pool.miniMiner listed).calculateBumpFees target o).elim
        (Except.error SelectionFailure.outOfRange) Except.ok) =
      .ok (os.map (pool.ownCharge listed target)) := by
    intro os hos
    induction os with
    | nil => rfl
    | cons o os ih =>
      rw [cons_subset] at hos
      rw [mapM_cons, MiniMiner.calculateBumpFees_eq hlisted hos.1, ih hos.2]
      rfl
  rw [bumpFeeGroupDiscount, hmap selected hsub, MiniMiner.calculateTotalBumpFees_eq hselected]
  simp only [bind, Except.bind]
  split
  · rfl
  · next hzero =>
    rw [not_not.1 hzero]
    rfl

omit hlisted hselected hsub

def firstOutput (txid : Uint256) : OutPoint := ⟨txid, 0⟩

/-- Two children of one parent, all of which pay one unit for a virtual byte. -/
def siblingPool : TxPool where
  txids := [1, 2, 3]
  entry := fun txid =>
    match txid.toNat with
    | 1 => ⟨[firstOutput 100], 100, 100⟩
    | 2 => ⟨[⟨1, 0⟩], 100, 100⟩
    | _ => ⟨[⟨1, 1⟩], 100, 100⟩

/-- Ancestors with a surplus pay for a transaction, below two that pay too little for themselves.
-/
def surplusPool : TxPool where
  txids := [1, 2, 3, 4, 5, 6, 7, 8]
  entry := fun txid =>
    match txid.toNat with
    | 1 => ⟨[firstOutput 100], 1700, 1700⟩
    | 2 => ⟨[⟨1, 0⟩], 200, 17000⟩
    | 3 => ⟨[⟨1, 1⟩], 200, 3000⟩
    | 4 => ⟨[⟨2, 0⟩, ⟨3, 0⟩], 100, 900⟩
    | 5 => ⟨[⟨4, 0⟩], 50, 50⟩
    | 6 => ⟨[⟨4, 1⟩], 50, 50⟩
    | 7 => ⟨[⟨5, 0⟩], 100, 900⟩
    | _ => ⟨[⟨6, 0⟩], 100, 900⟩

end

end Quarlcoin
