import Quarlcoin.Common.FiniteMap
import Quarlcoin.Node.MiniMiner
/-!
# Building the mock template

The miner's cached sums are over the ancestors that remain: no ancestor is replaced before
its descendants, and a mined package is subtracted from exactly those that descend from it.
-/

namespace Quarlcoin

open Arith Reach List Finset

/-! ## What the loops over outpoints leave -/

theorem emplace_apply (fees : OutPoint → Option ℤ) (p : OutPoint) (fee : ℤ) (o : OutPoint) :
    emplace fees p fee o = (fees o).or (if o = p then some fee else none) := by
  unfold emplace
  by_cases ho : o = p
  · subst ho
    cases hfees : fees o <;> simp [hfees]
  · split
    · rw [Option.or_none]
    · rw [Function.update_of_ne ho, Option.or_none]

theorem foldl_emplace_apply (os : List OutPoint) (fee : ℤ) (fees : OutPoint → Option ℤ)
    (o : OutPoint) : os.foldl (fun fees o => emplace fees o fee) fees o =
      (fees o).or (if o ∈ os then some fee else none) := by
  induction os generalizing fees with
  | nil => simp
  | cons p os ih =>
    rw [foldl_cons, ih, emplace_apply]
    by_cases hp : o = p <;> by_cases hos : o ∈ os <;> cases fees o <;> simp [hp]

variable {pool : TxPool} {m : MiniMiner} {t x d anc : Uint256} {S txids : List Uint256}
  {outpoints : List OutPoint}

namespace MiniMiner

variable {target : FeeFrac}

theorem charge_eq (m : MiniMiner) (txid : Uint256) (fee : ℤ) : m.charge txid fee = { m with
      bumpFees := fun o => (m.bumpFees o).or
        (if o ∈ m.requestedOutpoints ∧ o.hash = txid then some fee else none) } := by
  unfold charge
  congr 1
  funext o
  rw [foldl_emplace_apply]
  simp

theorem foldl_discharge (txids : List Uint256) (m : MiniMiner) : txids.foldl discharge m = { m with
      requestedOutpoints := m.requestedOutpoints.filter (·.hash ∉ txids)
      bumpFees := fun o => (m.bumpFees o).or
        (if o ∈ m.requestedOutpoints ∧ o.hash ∈ txids then some 0 else none) } := by
  induction txids generalizing m with
  | nil => simp
  | cons t txids ih =>
    rw [List.foldl_cons, ih, discharge, charge_eq]
    simp only [List.filter_filter, List.mem_cons, not_or, ← Bool.decide_and]
    congr 1
    · congr 1
      funext o
      exact decide_eq_decide.2 and_comm
    · funext o
      by_cases ho : o ∈ m.requestedOutpoints <;> by_cases ht : o.hash = t <;>
        cases m.bumpFees o <;> simp [ht]

theorem foldl_chargeEntry (txids : List Uint256) (m : MiniMiner) :
    txids.foldl (chargeEntry target) m = { m with
      bumpFees := fun o => (m.bumpFees o).or
        (if o ∈ m.requestedOutpoints ∧ o.hash ∈ txids ∧ o.hash ∈ m.entries
          then some (bumpFee target (m.entry o.hash)) else none) } := by
  induction txids generalizing m with
  | nil => simp
  | cons t txids ih =>
    rw [foldl_cons, ih, chargeEntry]
    split
    · next ht =>
      rw [charge_eq]
      congr 1
      funext o
      by_cases ho : o ∈ m.requestedOutpoints <;> by_cases hot : o.hash = t <;>
        cases hfees : m.bumpFees o <;> simp [ho, hot, ht, hfees]
    · next ht =>
      congr 1
      funext o
      by_cases hot : o.hash = t
      · subst hot
        simp [ht]
      · simp [hot]

end MiniMiner

/-! ## Ancestors and descendants in the mempool -/

namespace TxPool

theorem closed_parents (pool : TxPool) : Closed pool.parents pool.txids :=
  fun _ _ _ hb => of_decide_eq_true (mem_filter.1 hb).2

theorem mem_children : d ∈ pool.children t ↔ d ∈ pool.txids ∧ t ∈ pool.parents d := by
  rw [children, mem_filter, decide_eq_true_eq]

theorem closed_children (pool : TxPool) : Closed pool.children pool.txids :=
  fun _ _ _ hb => (mem_children.1 hb).1

section

variable (ht : t ∈ pool.txids)
include ht

theorem mem_getAncestors : x ∈ pool.getAncestors t ↔ Reaches pool.parents t x := by
  rw [getAncestors, mem_visit_iff pool.closed_parents (cons_subset.2 ⟨ht, nil_subset _⟩) le_rfl]
  simp

theorem nodup_getAncestors : (pool.getAncestors t).Nodup :=
  nodup_visit pool.closed_parents (cons_subset.2 ⟨ht, nil_subset _⟩) le_rfl

/-- **Descendants are found the other way.** -/
theorem mem_calculateDescendants :
    d ∈ pool.calculateDescendants t ↔ d ∈ pool.txids ∧ Reaches pool.parents d t := by
  rw [calculateDescendants, mem_visit_iff pool.closed_children
    (cons_subset.2 ⟨ht, nil_subset _⟩) le_rfl]
  simp only [List.mem_singleton, exists_eq_left]
  constructor
  · intro h
    exact ⟨h.mem_of_closed pool.closed_children ht, h.swap fun _ _ _ hd => (mem_children.1 hd).2⟩
  · rintro ⟨hd, h⟩
    exact h.swap fun c _ hc hstep => mem_children.2 ⟨hc.mem_of_closed pool.closed_parents hd, hstep⟩

end

open scoped Classical in
/-- The ancestors of a transaction among some transactions, itself included. -/
noncomputable def ancestorsIn (pool : TxPool) (E : List Uint256) (t : Uint256) : Finset Uint256 :=
  E.toFinset.filter fun x => Reaches pool.parents t x

theorem mem_ancestorsIn {E : List Uint256} :
    x ∈ pool.ancestorsIn E t ↔ x ∈ E ∧ Reaches pool.parents t x := by
  simp [ancestorsIn]

theorem ancestorsIn_filter {E : List Uint256} :
    pool.ancestorsIn (E.filter (· ∉ S)) t = (pool.ancestorsIn E t).filter (· ∉ S) := by
  ext x
  simp only [mem_ancestorsIn, Finset.mem_filter, List.mem_filter, decide_eq_true_eq]
  tauto

end TxPool

/-! ## The cached sums -/

namespace MiniMiner

/-- The miner's entries are those of the mempool, with sums over the ancestors
that remain. -/
structure Consistent (pool : TxPool) (m : MiniMiner) : Prop where
  vin : ∀ t, (m.entry t).vin = (pool.entry t).vin
  vsize : ∀ t, (m.entry t).vsizeIndividual = (pool.entry t).vsize
  fee : ∀ t, (m.entry t).feeIndividual = (pool.entry t).modifiedFee
  reaches_iff : ∀ t ∈ m.entries, ∀ x,
    Reaches m.parents t x ↔ Reaches pool.parents t x ∧ x ∈ m.entries
  vsize_sum : ∀ t ∈ m.entries, (m.entry t).vsizeWithAncestors =
    ∑ x ∈ pool.ancestorsIn m.entries t, (pool.entry x).vsize
  fee_sum : ∀ t ∈ m.entries, (m.entry t).feeWithAncestors =
    ∑ x ∈ pool.ancestorsIn m.entries t, (pool.entry x).modifiedFee
  nodup : ∀ t ∈ m.entries, (m.descendantSet t).Nodup
  mem_descendantSet : ∀ t ∈ m.entries, ∀ d ∈ m.entries,
    d ∈ m.descendantSet t ↔ Reaches pool.parents d t

theorem closed_parents (m : MiniMiner) : Closed m.parents m.entries :=
  fun _ _ _ hb => of_decide_eq_true (mem_filter.1 hb).2

section

variable (ht : t ∈ m.entries)
include ht

theorem mem_ancestorsOf : x ∈ m.ancestorsOf t ↔ Reaches m.parents t x := by
  rw [ancestorsOf, mem_visit_iff m.closed_parents (cons_subset.2 ⟨ht, nil_subset _⟩) le_rfl]
  simp

theorem nodup_ancestorsOf : (m.ancestorsOf t).Nodup :=
  nodup_visit m.closed_parents (cons_subset.2 ⟨ht, nil_subset _⟩) le_rfl

theorem ancestorsOf_subset : m.ancestorsOf t ⊆ m.entries :=
  fun _ hx => ((mem_ancestorsOf ht).1 hx).mem_of_closed m.closed_parents ht

theorem closed_ancestorsOf : Closed m.parents (m.ancestorsOf t) :=
  fun _ ha _ hb => (mem_ancestorsOf ht).2 (((mem_ancestorsOf ht).1 ha).tail hb)

end

theorem mine_eq (hnodup : (m.descendantSet anc).Nodup) : m.mine anc = { m with
      inBlock := anc :: m.inBlock
      entry := fun t =>
        if t ∈ m.descendantSet anc then
          (m.entry t).updateAncestorState (-(m.entry anc).vsizeIndividual)
            (-(m.entry anc).feeIndividual)
        else m.entry t } := by
  simp only [mine, mk.injEq, true_and, and_true]
  funext t
  exact FiniteMap.foldl_update_apply hnodup (fun e : MockEntry => e.updateAncestorState
    (-(m.entry anc).vsizeIndividual) (-(m.entry anc).feeIndividual)) m.entry t

/-- **A package is mined**: every entry stops paying for those of the package
that it descends from. -/
theorem foldl_mine (S : List Uint256) (m : MiniMiner)
    (hnodup : ∀ x ∈ S, (m.descendantSet x).Nodup) : S.foldl mine m = { m with
      inBlock := S.reverse ++ m.inBlock
      entry := fun t => (m.entry t).updateAncestorState
        (-((S.filter (t ∈ m.descendantSet ·)).map fun x => (m.entry x).vsizeIndividual).sum)
        (-((S.filter (t ∈ m.descendantSet ·)).map fun x => (m.entry x).feeIndividual).sum) } := by
  induction S generalizing m with
  | nil => simp [MockEntry.updateAncestorState]
  | cons anc S ih =>
    have hmem : ∀ x ∈ S, ((m.mine anc).descendantSet x).Nodup :=
      fun x hx => hnodup x (mem_cons_of_mem _ hx)
    rw [foldl_cons, ih (m.mine anc) hmem, mine_eq (hnodup anc mem_cons_self)]
    simp only [apply_ite MockEntry.vsizeIndividual, apply_ite MockEntry.feeIndividual,
      MockEntry.updateAncestorState, ite_self, reverse_cons, append_assoc,
      singleton_append, mk.injEq, true_and, and_true]
    funext t
    by_cases ht : t ∈ m.descendantSet anc
    · simp only [ht, if_true, List.filter_cons, decide_true, List.map_cons, List.sum_cons,
        MockEntry.mk.injEq, true_and]
      constructor <;> ring
    · simp [ht]

variable (h : Consistent pool m)
include h

theorem Consistent.sum_package (hS : S.Nodup) (hsub : S ⊆ m.entries)
    (ht : t ∈ m.entries) (f : Uint256 → ℤ) : ((S.filter (t ∈ m.descendantSet ·)).map f).sum =
      ∑ x ∈ (pool.ancestorsIn m.entries t).filter (· ∈ S), f x := by
  rw [← List.sum_toFinset f (hS.filter _)]
  refine Finset.sum_congr (Finset.ext fun x => ?_) fun _ _ => rfl
  simp only [List.mem_toFinset, List.mem_filter, decide_eq_true_eq, Finset.mem_filter,
    TxPool.mem_ancestorsIn]
  constructor
  · rintro ⟨hx, hdesc⟩
    exact ⟨⟨hsub hx, (h.mem_descendantSet x (hsub hx) t ht).1 hdesc⟩, hx⟩
  · rintro ⟨⟨-, hreach⟩, hx⟩
    exact ⟨hx, (h.mem_descendantSet x (hsub hx) t ht).2 hreach⟩

theorem Consistent.deleteAncestorPackage_eq (hsub : S ⊆ m.entries) :
    m.deleteAncestorPackage S = { m with
      inBlock := S.reverse ++ m.inBlock
      entries := m.entries.filter (· ∉ S)
      entry := fun t => (m.entry t).updateAncestorState
        (-((S.filter (t ∈ m.descendantSet ·)).map fun x => (pool.entry x).vsize).sum)
        (-((S.filter (t ∈ m.descendantSet ·)).map fun x => (pool.entry x).modifiedFee).sum) } := by
  rw [deleteAncestorPackage, foldl_mine _ m fun x hx => h.nodup x (hsub hx)]
  simp only [h.vsize, h.fee]

/-- **One package**: the sums are over the ancestors that remain. -/
theorem Consistent.deletePackage (ht : t ∈ m.entries) :
    Consistent pool (m.deleteAncestorPackage (m.ancestorsOf t)) := by
  have hsub := ancestorsOf_subset ht
  have hclosed := closed_ancestorsOf ht
  have hpackage := fun u hu => h.sum_package (nodup_ancestorsOf ht) hsub (t := u) hu
  rw [h.deleteAncestorPackage_eq hsub]
  generalize m.ancestorsOf t = S at hsub hclosed hpackage
  have hmem : ∀ u, u ∈ m.entries.filter (· ∉ S) ↔ u ∈ m.entries ∧ u ∉ S := by
    intro u
    rw [mem_filter, decide_eq_true_eq]
  have hsplit := fun u (f : Uint256 → ℤ) =>
    sum_filter_add_sum_filter_not (pool.ancestorsIn m.entries u) (· ∈ S) f
  refine ⟨h.vin, h.vsize, h.fee, fun u hu x => ?_, fun u hu => ?_, fun u hu => ?_,
    fun u hu => ?_, fun u hu d hd => ?_⟩
  · obtain ⟨hu, huS⟩ := (hmem u).1 hu
    have hnext : ∀ a b, a ∉ S →
        (b ∈ ((m.entry a).vin.map (·.hash)).filter (· ∈ m.entries.filter (· ∉ S)) ↔
          b ∈ m.parents a ∧ b ∉ S) := by
      intro a b _
      simp [MiniMiner.parents, and_assoc]
    refine (reaches_sdiff_iff hclosed hnext huS).trans ?_
    rw [h.reaches_iff u hu, hmem, and_assoc]
  · obtain ⟨hu, -⟩ := (hmem u).1 hu
    have hsum := h.vsize_sum u hu
    rw [← hsplit u, ← hpackage u hu] at hsum
    rw [TxPool.ancestorsIn_filter]
    exact neg_add_eq_iff_eq_add.2 hsum |> (add_comm _ _).trans
  · obtain ⟨hu, -⟩ := (hmem u).1 hu
    have hsum := h.fee_sum u hu
    rw [← hsplit u, ← hpackage u hu] at hsum
    rw [TxPool.ancestorsIn_filter]
    exact neg_add_eq_iff_eq_add.2 hsum |> (add_comm _ _).trans
  · exact h.nodup u ((hmem u).1 hu).1
  · exact h.mem_descendantSet u ((hmem u).1 hu).1 d ((hmem d).1 hd).1

omit h

/-- What is mined leaves the entries for the block, and nothing else changes. -/
structure Mined (m m' : MiniMiner) : Prop where
  requested : m'.requestedOutpoints = m.requestedOutpoints
  bumpFees : m'.bumpFees = m.bumpFees
  mem_or : ∀ t ∈ m.entries, t ∈ m'.inBlock ∨ t ∈ m'.entries
  inBlock : ∀ t ∈ m'.inBlock, t ∉ m'.entries
  entries_subset : m'.entries ⊆ m.entries
  inBlock_subset : m.inBlock ⊆ m'.inBlock

theorem Consistent.mined_deletePackage (h : Consistent pool m) (ht : t ∈ m.entries)
    (hblock : ∀ t ∈ m.inBlock, t ∉ m.entries) :
    Mined m (m.deleteAncestorPackage (m.ancestorsOf t)) := by
  rw [h.deleteAncestorPackage_eq (ancestorsOf_subset ht)]
  generalize m.ancestorsOf t = S
  refine ⟨rfl, rfl, fun u hu => ?_, fun u hu hmem => ?_, filter_subset_self _,
    subset_append_right _ _⟩
  · by_cases huS : u ∈ S
    · exact .inl (mem_append_left _ (mem_reverse.2 huS))
    · exact .inr (mem_filter.2 ⟨hu, decide_eq_true huS⟩)
  · obtain ⟨hu', huS⟩ := mem_filter.1 hmem
    rcases mem_append.1 hu with hu | hu
    · exact of_decide_eq_true huS (mem_reverse.1 hu)
    · exact hblock u hu hu'

theorem Mined.refl (hblock : ∀ t ∈ m.inBlock, t ∉ m.entries) : Mined m m :=
  ⟨rfl, rfl, fun _ ht => .inr ht, hblock, List.Subset.refl _, List.Subset.refl _⟩

theorem Mined.trans {m₁ m₂ m₃ : MiniMiner} (h : Mined m₁ m₂) (h' : Mined m₂ m₃) : Mined m₁ m₃ where
  requested := h'.requested.trans h.requested
  bumpFees := h'.bumpFees.trans h.bumpFees
  mem_or := by
    intro t ht
    rcases h.mem_or t ht with ht | ht
    · exact .inl (h'.inBlock_subset ht)
    · exact h'.mem_or t ht
  inBlock := h'.inBlock
  entries_subset := List.Subset.trans h'.entries_subset h.entries_subset
  inBlock_subset := List.Subset.trans h.inBlock_subset h'.inBlock_subset

/-- **All packages.** -/
theorem Consistent.buildMockTemplateLoop (h : Consistent pool m)
    (hblock : ∀ t ∈ m.inBlock, t ∉ m.entries) (targetFeerate : Option FeeFrac) (n : ℕ) :
    Consistent pool (buildMockTemplateLoop targetFeerate n m) ∧
      Mined m (buildMockTemplateLoop targetFeerate n m) := by
  induction n generalizing m with
  | zero => exact ⟨h, .refl hblock⟩
  | succ n ih =>
    unfold MiniMiner.buildMockTemplateLoop
    split
    · exact ⟨h, .refl hblock⟩
    next best hbest =>
    split
    · exact ⟨h, .refl hblock⟩
    · have hmem := Choice.best_mem hbest
      have hone := h.mined_deletePackage hmem hblock
      obtain ⟨hcons, hrest⟩ := ih (h.deletePackage hmem) hone.inBlock
      exact ⟨hcons, hone.trans hrest⟩

end MiniMiner

/-! ## The constructor -/

namespace TxPool

theorem gatherClusters_spec (pool : TxPool) (txids : List Uint256) :
    Closed pool.parents (pool.gatherClusters txids) ∧ pool.gatherClusters txids ⊆ pool.txids ∧
      (pool.gatherClusters txids ≠ [] →
        ∀ t ∈ txids, t ∈ pool.txids → t ∈ pool.gatherClusters txids) := by
  have hU : Closed (fun t => pool.parents t ++ pool.children t) pool.txids := by
    intro a ha b hb
    rcases mem_append.1 hb with hb | hb
    · exact pool.closed_parents a ha b hb
    · exact pool.closed_children a ha b hb
  have hstart : txids.filter (· ∈ pool.txids) ⊆ pool.txids :=
    fun _ ht => of_decide_eq_true (mem_filter.1 ht).2
  obtain ⟨-, hclosed, -, hwork⟩ := (Searching.start hstart).visit_spec hU (Nat.le_add_right _ _)
  have hsub : ∀ t ∈ visit (fun t => pool.parents t ++ pool.children t) pool.txids.length
      (txids.filter (· ∈ pool.txids)) [], t ∈ pool.txids := by
    intro t ht
    obtain ⟨a, ha, hat⟩ := (mem_visit_iff hU hstart le_rfl).1 ht
    exact hat.mem_of_closed hU (hstart ha)
  simp only [gatherClusters]
  split
  · exact ⟨fun _ ha => absurd ha not_mem_nil, nil_subset _, fun h => absurd rfl h⟩
  · exact ⟨fun a ha b hb => hclosed a ha b (mem_append_left _ hb), hsub, fun _ t ht hmem =>
      hwork (mem_filter.2 ⟨ht, decide_eq_true hmem⟩)⟩

theorem mem_toBeReplaced_of_child (hx : x ∈ pool.toBeReplaced outpoints)
    (hd : d ∈ pool.children x) : d ∈ pool.toBeReplaced outpoints := by
  obtain ⟨o, ho, hx⟩ := mem_flatMap.1 hx
  refine mem_flatMap.2 ⟨o, ho, ?_⟩
  cases hconflict : pool.getConflictTx o with
  | none =>
    rw [hconflict] at hx
    exact absurd hx not_mem_nil
  | some c =>
    rw [hconflict] at hx
    have hc : c ∈ pool.txids := mem_of_find?_eq_some hconflict
    obtain ⟨hd, hstep⟩ := mem_children.1 hd
    exact (mem_calculateDescendants hc).2
      ⟨hd, Relation.ReflTransGen.head hstep ((mem_calculateDescendants hc).1 hx).2⟩

section

variable {cluster replaced : List Uint256}

variable (hclosed : Closed pool.parents cluster) (hsub : cluster ⊆ pool.txids)
  (hreplaced : ∀ x ∈ replaced, ∀ d ∈ pool.children x, d ∈ replaced)
include hclosed hsub hreplaced

/-- What is replaced takes its descendants along. -/
theorem closed_unreplaced : Closed pool.parents (cluster.filter (· ∉ replaced)) := by
  intro a ha b hb
  obtain ⟨ha, hnot⟩ := mem_filter.1 ha
  refine mem_filter.2 ⟨hclosed a ha b hb, decide_eq_true fun hrep => of_decide_eq_true hnot ?_⟩
  exact hreplaced b hrep a (mem_children.2 ⟨hsub ha, hb⟩)

/-- A copy of some clusters without what is replaced: nothing has been mined. -/
theorem consistent_of_closed {m : MiniMiner}
    (hentries : m.entries = cluster.filter (· ∉ replaced)) (hentry : m.entry = pool.mockEntry)
    (hdesc : m.descendantSet = fun t => (pool.calculateDescendants t).filter (· ∉ replaced)) :
    MiniMiner.Consistent pool m := by
  have hmem : ∀ t, t ∈ m.entries ↔ t ∈ cluster ∧ t ∉ replaced := by
    intro t
    rw [hentries, mem_filter, decide_eq_true_eq]
  have hpool : ∀ t ∈ m.entries, t ∈ pool.txids := fun t ht => hsub ((hmem t).1 ht).1
  have hE : Closed pool.parents m.entries :=
    hentries ▸ closed_unreplaced hclosed hsub hreplaced
  have hanc : ∀ t ∈ m.entries, (pool.getAncestors t).toFinset = pool.ancestorsIn m.entries t := by
    intro t ht
    ext x
    rw [mem_toFinset, mem_getAncestors (hpool t ht), mem_ancestorsIn]
    exact ⟨fun h => ⟨h.mem_of_closed hE ht, h⟩, fun h => h.2⟩
  have hsum : ∀ t ∈ m.entries, ∀ f : Uint256 → ℤ,
      ((pool.getAncestors t).map f).sum = ∑ x ∈ pool.ancestorsIn m.entries t, f x := by
    intro t ht f
    rw [← hanc t ht, sum_toFinset f (nodup_getAncestors (hpool t ht))]
  refine ⟨fun t => by rw [hentry]; rfl, fun t => by rw [hentry]; rfl,
    fun t => by rw [hentry]; rfl, fun t ht x => ?_, fun t ht => ?_, fun t ht => ?_, fun t ht => ?_,
    fun t ht d hd => ?_⟩
  · constructor
    · intro h
      refine ⟨h.congr fun c b _ hb => ?_, h.mem_of_closed m.closed_parents ht⟩
      rw [MiniMiner.parents, hentry, mem_filter] at hb
      exact mem_filter.2 ⟨hb.1, decide_eq_true (hpool b (of_decide_eq_true hb.2))⟩
    · rintro ⟨h, -⟩
      refine h.congr fun c b hc hb => ?_
      rw [MiniMiner.parents, hentry]
      exact mem_filter.2 ⟨(mem_filter.1 hb).1, decide_eq_true (hE c (hc.mem_of_closed hE ht) b hb)⟩
  · rw [hentry]
    exact hsum t ht _
  · rw [hentry]
    exact hsum t ht _
  · rw [hdesc]
    exact (nodup_visit pool.closed_children (cons_subset.2 ⟨hpool t ht, nil_subset _⟩) le_rfl).filter _
  · rw [hdesc, mem_filter, mem_calculateDescendants (hpool t ht), decide_eq_true_eq]
    exact ⟨fun h => h.1.2, fun h => ⟨⟨hpool d hd, h⟩, ((hmem d).1 hd).2⟩⟩

end

/-- What the constructor did with an outpoint: it costs nothing, or is still to be charged. -/
def Listed (m : MiniMiner) (o : OutPoint) : Prop :=
  (m.bumpFees o = some 0 ∧ o ∉ m.requestedOutpoints ∧ o.hash ∉ m.entries) ∨
    (m.bumpFees o = none ∧ o ∈ m.requestedOutpoints ∧ o.hash ∈ m.entries)

theorem requestAll_bumpFees (o : OutPoint) (ho : o ∈ outpoints) :
    (pool.requestAll outpoints).bumpFees o = if o.hash ∈ pool.txids then none else some 0 := by
  simp only [requestAll, foldl_emplace_apply, mem_filter, ho, true_and, decide_eq_true_eq]
  split <;> rename_i h <;> simp [h]

/-- What the constructor leaves: a copy of what the mempool has, with every outpoint
listed. -/
structure Copies (pool : TxPool) (outpoints : List OutPoint) (m : MiniMiner) : Prop where
  consistent : MiniMiner.Consistent pool m
  inBlock : m.inBlock = []
  listed : ∀ o ∈ outpoints, Listed m o
  requested : ∀ o ∈ m.requestedOutpoints, o ∈ outpoints
  closed : Closed pool.parents m.entries
  entries : m.entries ⊆ pool.txids
  kept : ∀ o ∈ outpoints, o.hash ∈ pool.txids → o.hash ∉ pool.toBeReplaced outpoints →
    o.hash ∈ m.entries

/-- **The constructor** copies what the mempool has and lists every outpoint. -/
theorem miniMiner_spec (hready : (pool.miniMiner outpoints).readyToCalculate = true) :
    Copies pool outpoints (pool.miniMiner outpoints) := by
  have hreq : ∀ o, o ∈ (pool.requestAll outpoints).requestedOutpoints ↔
      o ∈ outpoints ∧ o.hash ∈ pool.txids := by
    intro o
    rw [requestAll, mem_filter, decide_eq_true_eq]
  unfold miniMiner at hready ⊢
  simp only at hready ⊢
  split at hready
  · next hnil =>
    rw [if_pos hnil]
    have hout : ∀ o ∈ outpoints, o.hash ∉ pool.txids := by
      intro o ho hmem
      have hin := (hreq o).2 ⟨ho, hmem⟩
      rw [hnil] at hin
      exact not_mem_nil hin
    refine ⟨⟨fun _ => rfl, fun _ => rfl, fun _ => rfl, ?_, ?_, ?_, ?_, ?_⟩, rfl, fun o ho => ?_,
      fun o ho => ((hreq o).1 ho).1, ?_, nil_subset _, fun o ho hmem => absurd hmem (hout o ho)⟩
    any_goals exact fun t ht => absurd ht not_mem_nil
    left
    rw [requestAll_bumpFees o ho, if_neg (hout o ho)]
    exact ⟨rfl, fun hin => hout o ho ((hreq o).1 hin).2, not_mem_nil⟩
  · next hne =>
    rw [if_neg hne]
    split at hready
    · exact absurd hready (by simp)
    next hcluster =>
    obtain ⟨hclosed, hsub, hall⟩ := pool.gatherClusters_spec
      ((pool.requestAll outpoints).requestedOutpoints.map (·.hash))
    have hreplaced : ∀ x ∈ pool.toBeReplaced outpoints, ∀ d ∈ pool.children x,
        d ∈ pool.toBeReplaced outpoints := fun x hx d hd => mem_toBeReplaced_of_child hx hd
    have hin : ∀ o ∈ outpoints, o.hash ∈ pool.txids → o.hash ∈ pool.gatherClusters
        ((pool.requestAll outpoints).requestedOutpoints.map (·.hash)) := fun o ho hpool =>
      hall hcluster o.hash (mem_map.2 ⟨o, (hreq o).2 ⟨ho, hpool⟩, rfl⟩) hpool
    rw [if_neg hcluster, MiniMiner.foldl_discharge]
    refine ⟨consistent_of_closed hclosed hsub hreplaced rfl rfl rfl, rfl, fun o ho => ?_,
      fun o ho => ((hreq o).1 (mem_of_mem_filter ho)).1,
      closed_unreplaced hclosed hsub hreplaced, fun t ht => hsub (mem_of_mem_filter ht),
      fun o ho hpool hnot => mem_filter.2 ⟨hin o ho hpool, decide_eq_true hnot⟩⟩
    simp only [Listed, requestAll_bumpFees o ho, mem_filter, hreq, ho]
    by_cases hpool : o.hash ∈ pool.txids
    · by_cases hrep : o.hash ∈ pool.toBeReplaced outpoints
      · simp [hpool, hin o ho hpool, hrep]
      · simp [hpool, hin o ho hpool, hrep]
    · have hnot : o.hash ∉ pool.gatherClusters
          ((pool.requestAll outpoints).requestedOutpoints.map (·.hash)) :=
        fun h => hpool (hsub h)
      simp [hpool, hnot]

end TxPool

end Quarlcoin
