import Quarlcoin.Policy.Truc
/-!
# The restricted topology is an invariant

`Attachable` collects what the checks find out about every new dependency, and is enough for
the whole pool after the replacement (`Attachable.trucTopology`).
-/

namespace Quarlcoin

open Arith MemPool Relation Relatives List

/-- What holds of the dependencies of new transactions. A parent is in the pool or
new itself. -/
structure Attachable (pool : MemPool) (conflicts : List Uint256) (new : List MemPoolEntry) :
    Prop where
  kind : ∀ e ∈ new, ∀ p ∈ pool.mapTx ++ new, e.Spends p.tx.hash → (p.tx.IsTruc ↔ e.tx.IsTruc)
  size : ∀ e ∈ new, e.tx.IsTruc → ∀ p ∈ pool.mapTx ++ new, e.Spends p.tx.hash →
    e.txSize ≤ trucChildMaxVsize
  unique : ∀ e ∈ new, e.tx.IsTruc → ∀ p ∈ pool.mapTx ++ new, ∀ p' ∈ pool.mapTx ++ new,
    e.Spends p.tx.hash → e.Spends p'.tx.hash → p.tx.hash = p'.tx.hash
  /-- No two new transactions spend from the same parent. -/
  only : ∀ e ∈ new, e.tx.IsTruc → ∀ p ∈ pool.mapTx ++ new, e.Spends p.tx.hash →
    ∀ e' ∈ new, e'.Spends p.tx.hash → e.tx.hash = e'.tx.hash
  top : ∀ e ∈ new, e.tx.IsTruc → ∀ p ∈ pool.mapTx, e.Spends p.tx.hash →
    pool.getAncestorCount p.tx.hash ≤ 1
  top_new : ∀ e ∈ new, e.tx.IsTruc → ∀ p ∈ new, e.Spends p.tx.hash →
    ∀ q ∈ pool.mapTx ++ new, ¬p.Spends q.tx.hash
  /-- A parent in the pool has no descendant that stays. -/
  bare : ∀ e ∈ new, e.tx.IsTruc → ∀ p ∈ pool.mapTx, e.Spends p.tx.hash →
    pool.getDescendantCount p.tx.hash ≤ 1 ∨
      ∃ d ∈ pool.getDescendants p.tx.hash, d ≠ p.tx.hash ∧ d ∈ conflicts

variable {pool : MemPool} {conflicts : List Uint256} {new : List MemPoolEntry} {e p : MemPoolEntry}
  {a b x y : Uint256} {i : ℕ}

section

variable {h : pool.Addable new}

/-- The transactions of version 3 in a pool. -/
def MemPool.TrucTxid (pool : MemPool) (t : Uint256) : Prop :=
  ∃ e ∈ pool.mapTx, e.tx.hash = t ∧ e.tx.IsTruc

theorem trucTxid_iff (he : e ∈ pool.mapTx) : pool.TrucTxid e.tx.hash ↔ e.tx.IsTruc := by
  constructor
  · rintro ⟨e', he', heq, htruc⟩
    rwa [eq_of_hash_eq he' he heq] at htruc
  · exact fun htruc => ⟨e, he, rfl, htruc⟩

theorem mem_family (hp : p ∈ (pool.replace conflicts new h).mapTx) : p ∈ pool.mapTx ++ new := by
  rcases mem_replace.1 hp with ⟨hp, -⟩ | hp
  · exact mem_append_left _ hp
  · exact mem_append_right _ hp

theorem trucTxid_new (he : e ∈ new) :
    (pool.replace conflicts new h).TrucTxid e.tx.hash ↔ e.tx.IsTruc :=
  trucTxid_iff (mem_replace.2 (.inr he))

theorem below_replace : Below (pool.removeStaged (pool.getEntriesForConflicts conflicts)).Dep
    (pool.replace conflicts new h).Dep (fun t => ∃ e ∈ new, e.tx.hash = t) where
  old_left := by
    rintro x y hxy ⟨e, he, rfl⟩
    exact h.2 e he (pool.deps_mem _ (dep_removeStaged.1 hxy).1).1
  old_edge := by
    intro x y hxy hy
    rcases dep_replace.1 hxy with hold | ⟨e, he, heq, -⟩
    · exact hold
    · exact absurd ⟨e, he, heq⟩ hy

/-- **A new dependency** comes from an input. -/
theorem exists_of_dep_new (he : e ∈ new) (hdep : (pool.replace conflicts new h).Dep x e.tx.hash) :
    ∃ p ∈ (pool.replace conflicts new h).mapTx, p.tx.hash = x ∧ e.Spends x := by
  rcases dep_replace.1 hdep with hold | ⟨e', he', heq, hspends, p, hp, hpx⟩
  · have hmem := (pool.deps_mem _ (dep_removeStaged.1 hold).1).2
    exact absurd hmem (h.2 e he)
  · rw [inj_on_of_nodup_map h.1 he' he heq] at hspends
    exact ⟨p, hp, hpx, hspends⟩

variable (hattach : Attachable pool conflicts new)
include hattach

theorem Attachable.eq_of_path (he : e ∈ new) (htruc : e.tx.IsTruc)
    (hdep : (pool.replace conflicts new h).Dep x e.tx.hash)
    (hpath : ReflTransGen (pool.replace conflicts new h).Dep a x) : a = x := by
  obtain ⟨p, hp, rfl, hspends⟩ := exists_of_dep_new he hdep
  rcases mem_replace.1 hp with ⟨hpold, -⟩ | hpnew
  · have hold : ¬∃ e ∈ new, e.tx.hash = p.tx.hash := fun ⟨e, he, heq⟩ =>
      h.2 e he (heq ▸ mem_txids_of_mem hpold)
    have hpath' := below_replace.old_path hold hpath
    refine getAncestorCount_le_one (mem_txids_of_mem hpold) (hattach.top e he htruc p hpold hspends)
      (ReflTransGen.mono (fun a b hab => (dep_removeStaged.1 hab).1) _ _ hpath')
  · rcases hpath.cases_tail with heq | ⟨c, -, hc⟩
    · exact heq.symm
    · obtain ⟨q, hq, rfl, hqspends⟩ := exists_of_dep_new hpnew hc
      exact absurd hqspends (hattach.top_new e he htruc p hpnew hspends q (mem_family hq))

variable (hpool : TrucTopology pool)
include hpool

theorem Attachable.kind_dep (hdep : (pool.replace conflicts new h).Dep x y) :
    (pool.replace conflicts new h).TrucTxid x ↔ (pool.replace conflicts new h).TrucTxid y := by
  obtain ⟨p, hp, rfl⟩ := exists_of_mem_txids ((pool.replace conflicts new h).deps_mem _ hdep).1
  obtain ⟨c, hc, rfl⟩ := exists_of_mem_txids ((pool.replace conflicts new h).deps_mem _ hdep).2
  rw [trucTxid_iff hp, trucTxid_iff hc]
  rcases mem_replace.1 hc with ⟨hcold, -⟩ | hcnew
  · have hold := below_replace.old_edge _ _ hdep fun ⟨e, he, heq⟩ =>
      h.2 e he (heq ▸ mem_txids_of_mem hcold)
    obtain ⟨hdepOld, -⟩ := dep_removeStaged.1 hold
    rcases mem_replace.1 hp with ⟨hpold, -⟩ | hpnew
    · exact hpool.inherited p hpold c hcold hdepOld
    · exact absurd (pool.deps_mem _ hdepOld).1 (h.2 p hpnew)
  · obtain ⟨-, -, -, hspends⟩ := exists_of_dep_new hcnew hdep
    exact hattach.kind c hcnew p (mem_family hp) hspends

theorem Attachable.eq_of_kept_path (he : e ∈ new) (htruc : e.tx.IsTruc)
    (hdep : (pool.replace conflicts new h).Dep x e.tx.hash)
    (hpath : ReflTransGen (pool.removeStaged (pool.getEntriesForConflicts conflicts)).Dep x b) :
    b = x := by
  obtain ⟨p, hp, rfl, hspends⟩ := exists_of_dep_new he hdep
  rcases mem_replace.1 hp with ⟨hpold, -⟩ | hpnew
  · have hmem := mem_txids_of_mem hpold
    have hpathOld : pool.Descends p.tx.hash b :=
      ReflTransGen.mono (fun a b hab => (dep_removeStaged.1 hab).1) _ _ hpath
    rcases hattach.bare e he htruc p hpold hspends with hone | ⟨d, hd, hdne, hdconflict⟩
    · exact getDescendantCount_le_one hmem hone hpathOld
    by_contra hne
    -- the only descendant is a conflict, so that no path leads to it
    have hptruc := (hattach.kind e he p (mem_append_left _ hpold) hspends).2 htruc
    have hfew := (getDescendantCount_le_two_iff hmem).1 (hpool.descendants p hpold hptruc)
    have hdpath := (mem_getDescendants hmem).1 hd
    have hbd : b = d := hfew b d hpathOld hdpath hne hdne
    obtain ⟨c, hc⟩ :
        ∃ c, (pool.removeStaged (pool.getEntriesForConflicts conflicts)).Dep c b := by
      rcases hpath.cases_tail with heq | ⟨c, -, hc⟩
      · exact absurd heq hne
      · exact ⟨c, hc⟩
    obtain ⟨hcb, -, hkept⟩ := dep_removeStaged.1 hc
    exact hkept (mem_getEntriesForConflicts (hbd ▸ hdconflict) (pool.deps_mem _ hcb).2)
  · rcases hpath.cases_head with heq | ⟨c, hc, -⟩
    · exact heq.symm
    · exact absurd ⟨p, hpnew, rfl⟩ ((below_replace (h := h)).old_left _ _ hc)

theorem Attachable.attached :
    Attached (pool.removeStaged (pool.getEntriesForConflicts conflicts)).Dep
      (pool.replace conflicts new h).Dep (fun t => ∃ e ∈ new, e.tx.hash = t)
      (pool.replace conflicts new h).TrucTxid where
  toBelow := below_replace
  kind := fun x y hxy => hattach.kind_dep hpool hxy
  parent_unique := by
    rintro x x' - ⟨e, he, rfl⟩ hV hx hx'
    have htruc := (trucTxid_new he).1 hV
    obtain ⟨p, hp, rfl, hspends⟩ := exists_of_dep_new he hx
    obtain ⟨p', hp', rfl, hspends'⟩ := exists_of_dep_new he hx'
    exact hattach.unique e he htruc p (mem_family hp) p' (mem_family hp') hspends hspends'
  parent_top := by
    rintro x - ⟨e, he, rfl⟩ hV hx a ha
    exact hattach.eq_of_path he ((trucTxid_new he).1 hV) hx ha
  child_unique := by
    rintro x - - ⟨e, he, rfl⟩ ⟨e', he', rfl⟩ hV hx hx'
    have htruc := (trucTxid_new he).1 hV
    obtain ⟨p, hp, rfl, hspends⟩ := exists_of_dep_new he hx
    obtain ⟨-, -, -, hspends'⟩ := exists_of_dep_new he' hx'
    exact hattach.only e he htruc p (mem_family hp) hspends e' he' hspends'
  parent_bare := by
    rintro x - ⟨e, he, rfl⟩ hV hx b hb
    exact hattach.eq_of_kept_path hpool he ((trucTxid_new he).1 hV) hx hb

/-- **What the checks find out is enough** for the pool after the replacement. -/
theorem Attachable.trucTopology : TrucTopology (pool.replace conflicts new h) := by
  have hattached := hattach.attached (h := h) hpool
  have hkept : ∀ e ∈ (pool.replace conflicts new h).mapTx,
      ¬(∃ n ∈ new, n.tx.hash = e.tx.hash) → e ∈ pool.mapTx := by
    intro e he hnot
    rcases mem_replace.1 he with ⟨he, -⟩ | hnew
    · exact he
    · exact absurd ⟨e, hnew, rfl⟩ hnot
  have hsub : ∀ a b, (pool.removeStaged (pool.getEntriesForConflicts conflicts)).Dep a b →
      pool.Dep a b := fun a b hab => (dep_removeStaged.1 hab).1
  refine ⟨fun e he htruc => ?_, fun e he htruc => ?_, fun p hp c hc hdep => ?_,
    fun p hp c hc hdep htruc => ?_⟩
  · refine (getAncestorCount_le_two_iff (mem_txids_of_mem he)).2
      (hattached.fewAbove (fun hnot => ?_) ((trucTxid_iff he).2 htruc))
    have hold := hkept e he hnot
    exact ((getAncestorCount_le_two_iff (mem_txids_of_mem hold)).1
      (hpool.ancestors e hold htruc)).mono hsub
  · refine (getDescendantCount_le_two_iff (mem_txids_of_mem he)).2
      (hattached.fewBelow (fun hnot => ?_) ((trucTxid_iff he).2 htruc))
    have hold := hkept e he hnot
    exact ((getDescendantCount_le_two_iff (mem_txids_of_mem hold)).1
      (hpool.descendants e hold htruc)).mono hsub
  · rw [← trucTxid_iff hp, ← trucTxid_iff hc]
    exact hattach.kind_dep hpool hdep
  · by_cases hnew : ∃ n ∈ new, n.tx.hash = c.tx.hash
    · obtain ⟨n, hn, heq⟩ := hnew
      have hcn : n = c := eq_of_hash_eq (mem_replace.2 (.inr hn)) hc heq
      subst hcn
      obtain ⟨-, -, -, hspends⟩ := exists_of_dep_new hn hdep
      exact hattach.size n hn htruc p (mem_family hp) hspends
    · have hdepOld := hsub _ _ (hattached.old_edge _ _ hdep hnew)
      obtain ⟨p', hp', heq⟩ := exists_of_mem_txids (pool.deps_mem _ hdepOld).1
      refine hpool.child_size p' hp' c (hkept c hc hnew) ?_ htruc
      rw [heq]
      exact hdepOld

end

/-! ## One transaction -/

variable {ptx : TransactionRef} {others txns : List TransactionRef} {parent : ParentInfo}

theorem inheritanceCheck_eq_none
    (h : inheritanceCheck ptx p = none) : p.tx.IsTruc ↔ ptx.IsTruc := by
  unfold inheritanceCheck at h
  split at h
  · cases h
  · split at h
    · cases h
    · by_cases hp : p.tx.IsTruc <;> by_cases ht : ptx.IsTruc <;> simp_all

/-- What the check of the only parent says, if the sibling that an error names counts as a
conflict. -/
structure ParentAdmitted (pool : MemPool) (p : MemPoolEntry) (conflicts : List Uint256)
    (vsize : ℤ) : Prop where
  top : pool.getAncestorCount p.tx.hash ≤ 1
  size : vsize ≤ trucChildMaxVsize
  bare : pool.getDescendantCount p.tx.hash ≤ 1 ∨
    ∃ d ∈ pool.getDescendants p.tx.hash, d ≠ p.tx.hash ∧ d ∈ conflicts

/-- The conflicts that make a check pass, and with them the sibling that an error names. -/
def Admits (P : List Uint256 → Prop) (conflicts : List Uint256) :
    Option (String × Option TransactionRef) → Prop
  | none => P conflicts
  | some (_, none) => True
  | some (_, some sibling) => P (sibling.hash :: conflicts)

theorem trucParentCheck_spec (pool : MemPool) (conflicts : List Uint256) (ptx : TransactionRef)
    (p : MemPoolEntry) (vsize : ℤ) : Admits (ParentAdmitted pool p · vsize) conflicts
      (trucParentCheck pool ptx p conflicts vsize) := by
  unfold trucParentCheck
  dsimp only
  split
  · trivial
  next htop =>
  split
  · trivial
  next hsize =>
  rw [trucAncestorLimit] at htop
  split
  · generalize hsibling : Option.map _ _ = sibling
    cases sibling with
    | none => trivial
    | some sibling =>
      -- the sibling is a descendant of the parent
      simp only [Option.map_eq_some_iff, Option.bind_eq_some_iff] at hsibling
      obtain ⟨s, ⟨d, hd, hs⟩, rfl⟩ := hsibling
      have hmem := mem_of_head? (Option.filter_eq_some_iff.1 hd).1
      simp only [mem_filter, decide_eq_true_eq] at hmem
      have hhash : s.tx.hash = d := by simpa using find?_some hs
      exact ⟨by omega, Int.not_lt.1 hsize, .inr ⟨d, hmem.1, hmem.2, by simp [hhash]⟩⟩
  · next hfew =>
    refine ⟨by omega, Int.not_lt.1 hsize, ?_⟩
    rw [trucDescendantLimit] at hfew
    by_cases hcount : pool.getDescendantCount p.tx.hash ≤ 1
    · exact .inl hcount
    · have hreplaced := not_not.1 (not_and.1 hfew (by omega))
      obtain ⟨d, hd, hconflict⟩ := any_eq_true.1 hreplaced
      simp only [mem_filter, decide_eq_true_eq] at hd
      exact .inr ⟨d, hd.1, hd.2, by simpa using hconflict⟩

/-- **What one check says**: the parents are of the same kind, and at most one, which is admitted.
-/
structure SingleAdmitted (pool : MemPool) (e : MemPoolEntry) (conflicts : List Uint256) : Prop where
  kind : ∀ p ∈ pool.getParents e.tx, (p.tx.IsTruc ↔ e.tx.IsTruc)
  unique : e.tx.IsTruc → ∀ p ∈ pool.getParents e.tx, ∀ p' ∈ pool.getParents e.tx, p = p'
  admitted : e.tx.IsTruc → ∀ p ∈ pool.getParents e.tx, ParentAdmitted pool p conflicts e.txSize

theorem singleTRUCChecks_spec (pool : MemPool) (e : MemPoolEntry) (conflicts : List Uint256) :
    Admits (SingleAdmitted pool e) conflicts
      (singleTRUCChecks pool e.tx (pool.getParents e.tx) conflicts e.txSize) := by
  unfold singleTRUCChecks
  split
  · trivial
  next hkinds =>
  have hkind : ∀ p ∈ pool.getParents e.tx, (p.tx.IsTruc ↔ e.tx.IsTruc) := fun p hp =>
    inheritanceCheck_eq_none (findSome?_eq_none_iff.1 hkinds p hp)
  split
  · next hother => exact ⟨hkind, fun h => absurd h hother, fun h => absurd h hother⟩
  split
  · trivial
  split
  · trivial
  next hcount =>
  rw [trucAncestorLimit] at hcount
  generalize hparents : pool.getParents e.tx = parents at *
  rcases parents with - | ⟨p, - | ⟨q, parents⟩⟩
  · exact ⟨by simp [hparents], by simp [hparents], by simp [hparents]⟩
  · have hone : ∀ conflicts', ParentAdmitted pool p conflicts' e.txSize →
        SingleAdmitted pool e conflicts' := fun conflicts' hp =>
      ⟨by rwa [hparents], by simp [hparents], by simpa [hparents] using fun _ => hp⟩
    have hcheck := trucParentCheck_spec pool conflicts e.tx p e.txSize
    revert hcheck
    dsimp only
    rcases trucParentCheck pool e.tx p conflicts e.txSize with - | ⟨text, - | sibling⟩
    exacts [hone _, id, hone _]
  · rw [length_cons, length_cons] at hcount
    omega

theorem SingleAdmitted.attachable (h : SingleAdmitted pool e conflicts) :
    Attachable pool conflicts [e] := by
  have hself : ¬e.Spends e.tx.hash := fun hspends => hspends.1 rfl
  have hparent : ∀ p ∈ pool.mapTx ++ [e], e.Spends p.tx.hash → p ∈ pool.getParents e.tx := by
    intro p hp hspends
    rcases mem_append.1 hp with hp | hp
    · exact mem_getParents.2 ⟨hp, hspends.2⟩
    · rw [mem_singleton.1 hp] at hspends
      exact absurd hspends hself
  have hold : ∀ p ∈ pool.mapTx, e.Spends p.tx.hash → p ∈ pool.getParents e.tx :=
    fun p hp => hparent p (mem_append_left _ hp)
  constructor
  all_goals simp only [mem_singleton, forall_eq]
  · exact fun p hp hspends => h.kind p (hparent p hp hspends)
  · exact fun htruc p hp hspends => (h.admitted htruc p (hparent p hp hspends)).size
  · intro htruc p hp p' hp' hspends hspends'
    rw [h.unique htruc p (hparent p hp hspends) p' (hparent p' hp' hspends')]
  · exact fun _ _ _ _ _ => trivial
  · exact fun htruc p hp hspends => (h.admitted htruc p (hold p hp hspends)).top
  · exact fun _ hspends => absurd hspends hself
  · exact fun htruc p hp hspends => (h.admitted htruc p (hold p hp hspends)).bare

/-! ## A package -/

/-- The parents of the transaction at `i`, in the pool and in the package. -/
def packageParents (pool : MemPool) (txns : List TransactionRef) (i : ℕ) (e : MemPoolEntry) :
    List TransactionRef :=
  (pool.getParents e.tx).map (·.tx) ++ findInPackageParents txns i e.tx

/-- **What the check of one transaction of a package says.** -/
structure PackageAdmitted (pool : MemPool) (txns : List TransactionRef) (i : ℕ)
    (e : MemPoolEntry) : Prop where
  kind : ∀ tx ∈ packageParents pool txns i e, (tx.IsTruc ↔ e.tx.IsTruc)
  unique : e.tx.IsTruc → (packageParents pool txns i e).length ≤ 1
  size : e.tx.IsTruc → ∀ tx ∈ packageParents pool txns i e, e.txSize ≤ trucChildMaxVsize
  /-- No other transaction spends from the parent or from this transaction. -/
  others : e.tx.IsTruc → ∀ tx ∈ packageParents pool txns i e, ∀ other ∈ txns.eraseIdx i,
    ∀ input ∈ other.vin, input.prevout.hash ≠ tx.hash ∧ input.prevout.hash ≠ e.tx.hash
  counts : e.tx.IsTruc → ∀ q ∈ pool.getParents e.tx,
    pool.getAncestorCount q.tx.hash ≤ 1 ∧ pool.getDescendantCount q.tx.hash ≤ 1

theorem siblingCheck_eq_none {parent : TransactionRef} (h : siblingCheck ptx parent others = none) :
    ∀ other ∈ others, ∀ input ∈ other.vin,
      input.prevout.hash ≠ parent.hash ∧ input.prevout.hash ≠ ptx.hash := by
  intro other hother input hinput
  have hcheck := findSome?_eq_none_iff.1 (findSome?_eq_none_iff.1 h other hother) input hinput
  split at hcheck
  · cases hcheck
  next hparent =>
  split at hcheck
  · cases hcheck
  next hptx => exact ⟨hparent, hptx⟩

theorem packageParentCheck_eq_none {vsize : ℤ}
    (h : packageParentCheck ptx parent others vsize = none) :
    vsize ≤ trucChildMaxVsize ∧ parent.tx.IsTruc ∧ siblingCheck ptx parent.tx others = none ∧
      parent.hasMempoolDescendant = false := by
  unfold packageParentCheck at h
  split at h
  · cases h
  next hsize =>
  split at h
  · cases h
  next htruc =>
  split at h
  · cases h
  next hsibling =>
  split at h
  · cases h
  next hdesc => exact ⟨Int.not_lt.1 hsize, not_not.1 htruc, hsibling, by simpa using hdesc⟩

theorem packageAdmitted_of_parent
    (htruc : e.tx.IsTruc) (hparents : packageParents pool txns i e = [parent.tx])
    (h : packageParentCheck e.tx parent (txns.eraseIdx i) e.txSize = none)
    (hcounts : parent.hasMempoolDescendant = false → ∀ q ∈ pool.getParents e.tx,
      pool.getAncestorCount q.tx.hash ≤ 1 ∧ pool.getDescendantCount q.tx.hash ≤ 1) :
    PackageAdmitted pool txns i e := by
  obtain ⟨hsize, hparent, hsibling, hdesc⟩ := packageParentCheck_eq_none h
  constructor
  · simpa [hparents] using iff_of_true hparent htruc
  · simp [hparents]
  · simpa [hparents] using fun _ => hsize
  · simpa [hparents] using fun _ => siblingCheck_eq_none hsibling
  · exact fun _ => hcounts hdesc

theorem packageTRUCChecks_spec
    (h : packageTRUCChecks pool txns i e.tx e.txSize (pool.getParents e.tx) = none) :
    PackageAdmitted pool txns i e := by
  unfold packageTRUCChecks at h
  dsimp only at h
  split at h
  · next htruc =>
    split at h
    · cases h
    split at h
    · cases h
    next hcount =>
    rw [trucAncestorLimit] at hcount
    rcases hpool : pool.getParents e.tx with - | ⟨q, qs⟩
    · rcases hpackage : findInPackageParents txns i e.tx with - | ⟨tx, txs⟩
      · have hparents : packageParents pool txns i e = [] := by
          rw [packageParents, hpool, hpackage]
          rfl
        constructor <;> simp [hparents, hpool]
      · rw [hpool, hpackage] at hcount h
        have htxs : txs = [] := eq_nil_of_length_eq_zero (by simpa using hcount)
        have hparents : packageParents pool txns i e = [tx] := by
          rw [packageParents, hpool, hpackage, htxs]
          rfl
        exact packageAdmitted_of_parent htruc hparents h (by simp [hpool])
    · rw [hpool] at hcount h
      simp only [length_cons] at hcount
      have hqs : qs = [] := eq_nil_of_length_eq_zero (by omega)
      have hpackage : findInPackageParents txns i e.tx = [] := eq_nil_of_length_eq_zero (by omega)
      have hparents : packageParents pool txns i e = [q.tx] := by
        rw [packageParents, hpool, hpackage, hqs]
        rfl
      dsimp only at h
      split at h
      · cases h
      next htop =>
      rw [trucAncestorLimit] at htop
      refine packageAdmitted_of_parent htruc hparents h fun hdesc => ?_
      rw [hpool, hqs]
      simp only [mem_singleton, forall_eq]
      exact ⟨by omega, by simpa using hdesc⟩
  · next hother =>
    split at h
    · cases h
    next hnone =>
    have hkind : ∀ tx ∈ packageParents pool txns i e, ¬tx.IsTruc := fun tx htx => by
      simpa using find?_eq_none.1 hnone tx htx
    exact ⟨fun tx htx => iff_of_false (hkind tx htx) hother, fun htruc => absurd htruc hother,
      fun htruc => absurd htruc hother, fun htruc => absurd htruc hother,
      fun htruc => absurd htruc hother⟩

/-- In a sorted package, the parents are among those that the check looks at. -/
theorem mem_packageParents (hnodup : (new.map (·.tx.hash)).Nodup)
    (hsorted : isTopoSortedPackage (new.map (·.tx)) = true) (he : new[i]? = some e)
    (hp : p ∈ pool.mapTx ++ new) (hspends : e.Spends p.tx.hash) :
    p.tx ∈ packageParents pool (new.map (·.tx)) i e := by
  obtain ⟨hne, input, hinput, heq⟩ := hspends
  rcases mem_append.1 hp with hp | hp
  · exact mem_append_left _ (mem_map_of_mem (mem_getParents.2 ⟨hp, input, hinput, heq⟩))
  refine mem_append_right _ (mem_filter.2 ⟨?_, ?_⟩)
  · obtain ⟨j, hj⟩ := mem_iff_getElem?.1 hp
    have hnodup' : ((new.map (·.tx)).map (·.hash)).Nodup := by rwa [List.map_map]
    obtain ⟨hpairs, -⟩ := 
      topoSortedLoop_spec hsorted (fun _ hmem => mem_map_of_mem hmem) hnodup'
    rcases Nat.lt_trichotomy j i with hlt | rfl | hlt
    · refine mem_iff_getElem?.2 ⟨j, ?_⟩
      rw [getElem?_take_of_lt hlt, getElem?_map, hj]
      rfl
    · rw [he] at hj
      cases hj
      exact absurd rfl hne
    · obtain ⟨hilt, rfl⟩ := List.getElem?_eq_some_iff.1 he
      obtain ⟨hjlt, rfl⟩ := List.getElem?_eq_some_iff.1 hj
      have hlater := pairwise_iff_getElem.1 (pairwise_map.1 hpairs) i j hilt hjlt hlt
      exact absurd heq (hlater input hinput)
  · exact any_eq_true.2 ⟨input, hinput, by simpa using heq⟩

theorem attachable_of_packageAdmitted (conflicts : List Uint256)
    (hnodup : (new.map (·.tx.hash)).Nodup) (hsorted : isTopoSortedPackage (new.map (·.tx)) = true)
    (h : ∀ i e, new[i]? = some e → PackageAdmitted pool (new.map (·.tx)) i e) :
    Attachable pool conflicts new := by
  -- two different transactions are others to each other
  have hother : ∀ {i j : ℕ} {e e' : MemPoolEntry}, new[i]? = some e → new[j]? = some e' →
      e.tx.hash ≠ e'.tx.hash → e'.tx ∈ (new.map (·.tx)).eraseIdx i := by
    intro i j e e' hi hj hne
    refine mem_eraseIdx_iff_getElem?.2 ⟨j, ?_, by rw [getElem?_map, hj]; rfl⟩
    rintro rfl
    rw [hi] at hj
    cases hj
    exact hne rfl
  constructor
  · intro e he p hp hspends
    obtain ⟨i, hi⟩ := mem_iff_getElem?.1 he
    exact (h i e hi).kind p.tx (mem_packageParents hnodup hsorted hi hp hspends)
  · intro e he htruc p hp hspends
    obtain ⟨i, hi⟩ := mem_iff_getElem?.1 he
    exact (h i e hi).size htruc p.tx (mem_packageParents hnodup hsorted hi hp hspends)
  · intro e he htruc p hp p' hp' hspends hspends'
    obtain ⟨i, hi⟩ := mem_iff_getElem?.1 he
    have hmem := mem_packageParents hnodup hsorted hi hp hspends
    have hmem' := mem_packageParents hnodup hsorted hi hp' hspends'
    rw [eq_of_length_le_one ((h i e hi).unique htruc) hmem hmem']
  · intro e he htruc p hp hspends e' he' hspends'
    obtain ⟨i, hi⟩ := mem_iff_getElem?.1 he
    obtain ⟨j, hj⟩ := mem_iff_getElem?.1 he'
    by_contra hne
    obtain ⟨-, input, hinput, heq⟩ := hspends'
    exact ((h i e hi).others htruc p.tx (mem_packageParents hnodup hsorted hi hp hspends) e'.tx
      (hother hi hj hne) input hinput).1 heq
  · intro e he htruc p hp hspends
    obtain ⟨i, hi⟩ := mem_iff_getElem?.1 he
    exact ((h i e hi).counts htruc p (mem_getParents.2 ⟨hp, hspends.2⟩)).1
  · intro e he htruc p hp hspends q hq hpspends
    obtain ⟨i, hi⟩ := mem_iff_getElem?.1 he
    obtain ⟨j, hj⟩ := mem_iff_getElem?.1 hp
    have hptruc := ((h i e hi).kind p.tx (mem_packageParents hnodup hsorted hi
      (mem_append_right _ hp) hspends)).2 htruc
    obtain ⟨hne, input, hinput, heq⟩ := hspends
    exact ((h j p hj).others hptruc q.tx (mem_packageParents hnodup hsorted hj hq hpspends) e.tx
      (hother hj hi hne) input hinput).2 heq
  · intro e he htruc p hp hspends
    obtain ⟨i, hi⟩ := mem_iff_getElem?.1 he
    exact .inl ((h i e hi).counts htruc p (mem_getParents.2 ⟨hp, hspends.2⟩)).2

/-! ## The invariant -/

/-- **The topology is kept by acceptance**: of a transaction for which `SingleTRUCChecks` returns
no error, or names a sibling that leaves too; and of a sorted and consistent package, its hashes
distinct, for each of whose transactions `PackageTRUCChecks` returns none. -/
theorem trucTopology_replace (pool : MemPool) (hpool : TrucTopology pool) :
    (∀ (e : MemPoolEntry) (conflicts : List Uint256) (h : pool.Addable [e]),
      (singleTRUCChecks pool e.tx (pool.getParents e.tx) conflicts e.txSize = none →
        TrucTopology (pool.replace conflicts [e] h)) ∧ ∀ text sibling,
        singleTRUCChecks pool e.tx (pool.getParents e.tx) conflicts e.txSize =
          some (text, some sibling) →
        TrucTopology (pool.replace (sibling.hash :: conflicts) [e] h)) ∧
    ∀ (package : List MemPoolEntry) (conflicts : List Uint256),
      (∀ e ∈ package, e.tx.hash ∉ pool.txids) →
      (∀ e ∈ package, ∀ e' ∈ package, e.tx.hash = e'.tx.hash →
        e.tx.vin.map (·.prevout) = e'.tx.vin.map (·.prevout)) →
      isTopoSortedPackage (package.map (·.tx)) = true →
      isConsistentPackage (package.map (·.tx)) = true → (∀ i e, package[i]? = some e →
        packageTRUCChecks pool (package.map (·.tx)) i e.tx e.txSize (pool.getParents e.tx) = none) →
      ∃ h : pool.Addable package, TrucTopology (pool.replace conflicts package h) := by
  refine ⟨fun e conflicts h => ?_,
    fun package conflicts hfresh hhash hsorted hconsistent hchecks => ?_⟩
  · have hcheck := singleTRUCChecks_spec pool e conflicts
    refine ⟨fun hnone => ?_, fun text sibling hsome => ?_⟩
    · rw [hnone] at hcheck
      exact hcheck.attachable.trucTopology hpool
    · rw [hsome] at hcheck
      exact hcheck.attachable.trucTopology hpool
  · have hnodup : ((package.map (·.tx)).map (·.hash)).Nodup := by
      refine nodup_of_isConsistentPackage hconsistent ?_
      simpa using hhash
    rw [List.map_map] at hnodup
    have hattach := attachable_of_packageAdmitted conflicts hnodup hsorted fun i e he =>
      packageTRUCChecks_spec (hchecks i e he)
    exact ⟨⟨hnodup, hfresh⟩, hattach.trucTopology hpool⟩

def smallTruc (hash : Uint256) (prevout : OutPoint) : MemPoolEntry where
  tx :=
    { vin := [⟨prevout, [], 0, []⟩]
      vout := []
      version := 3
      nLockTime := 0
      hash
      witnessHash := hash }
  txSize := 200

def parentAndChild : MemPool where
  mapTx := [smallTruc 1 ⟨100, 0⟩, smallTruc 2 ⟨1, 0⟩]
  deps := [(1, 2)]
  nodup := by decide
  deps_mem := by simp [smallTruc]

theorem trucTopology_parentAndChild : TrucTopology parentAndChild where
  ancestors := by decide
  descendants := by decide
  inherited := by decide
  child_size := by decide

/-- A second child evicts the first one, and another family enters as a package. -/
theorem trucTopology_secondChild_and_package :
    (∃ h, TrucTopology (parentAndChild.replace [2] [smallTruc 3 ⟨1, 1⟩] h)) ∧ ∃ h, TrucTopology
        (parentAndChild.replace [] [smallTruc 4 ⟨100, 1⟩, smallTruc 5 ⟨4, 0⟩] h) := by
  obtain ⟨hsingle, hpackage⟩ := trucTopology_replace parentAndChild trucTopology_parentAndChild
  refine ⟨⟨⟨by decide, by decide⟩, (hsingle (smallTruc 3 ⟨1, 1⟩) [] ⟨by decide, by decide⟩).2
    _ (smallTruc 2 ⟨1, 0⟩).tx rfl⟩,
    hpackage _ [] (by decide) (by decide) (by decide) (by decide) ?_⟩
  intro i e hi
  rcases i with - | - | i
  · cases hi
    rfl
  · cases hi
    rfl
  · cases hi

end Quarlcoin
