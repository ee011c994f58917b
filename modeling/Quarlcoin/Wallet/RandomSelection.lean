import Quarlcoin.Wallet.CoinGrinder
/-!
# Single random draw and the knapsack solver

`SelectCoinsSRD` takes groups in a random order; `KnapsackSolver` looks for a subset of the
groups below the target with its change by random trials. How the random numbers fall is
arbitrary. The last section puts the four algorithms together.
-/

namespace Quarlcoin.Wallet

open Picking List OutputGroup COutput

/-! ## The random draw -/

def changeLower : ℤ := 50000

/-- The order of the heap, the least valuable group on top:
`MinOutputGroupComparator`. -/
def lessValuable (a b : OutputGroup) : Bool := a.getSelectionAmount < b.getSelectionAmount

/-- The variables of the draw. The heap is a list in its order. -/
structure DrawState where
  heap : List OutputGroup := []
  selectedEffValue : ℤ := 0
  weight : ℤ := 0
  maxTxWeightExceeded : Bool := false

/-- The loop that removes the least valuable groups; it removes one before it asks. -/
def removeLeast (maxWeight : ℤ) : List OutputGroup → ℤ → ℤ → Except Fault (List OutputGroup × ℤ × ℤ)
  | [], _, _ => .error .outOfRange
  | group :: heap, value, weight =>
    if heap ≠ [] ∧ weight - group.weight > maxWeight then
      removeLeast maxWeight heap (value - group.getSelectionAmount) (weight - group.weight)
    else .ok (heap, value - group.getSelectionAmount, weight - group.weight)

def drawGroup (sorter : Sorter) (maxWeight : ℤ) (group : OutputGroup) (s : DrawState) :
    Except Fault DrawState := do
  ensure (group.getSelectionAmount > 0)
  let heap := sorter.sort lessValuable (group :: s.heap)
  let value := s.selectedEffValue + group.getSelectionAmount
  let weight := s.weight + group.weight
  if weight > maxWeight then
    let (heap, value, weight) ← removeLeast maxWeight heap value weight
    return ⟨heap, value, weight, true⟩
  else return ⟨heap, value, weight, s.maxTxWeightExceeded⟩

def drawLoop (sorter : Sorter) (pool : List OutputGroup) (target maxWeight : ℤ)
    (result : SelectionResult) : List ℕ → DrawState → Selected
  | [], s => noSolution s.maxTxWeightExceeded
  | i :: indexes, s => do
    let group ← elementAt pool i
    let s ← drawGroup sorter maxWeight group s
    if s.selectedEffValue ≥ target then
      return .ok (← s.heap.foldlM SelectionResult.addInput result)
    else drawLoop sorter pool target maxWeight result indexes s

def selectCoinsSRD (sorter : Sorter) (rng : RandomContext) (utxoPool : List OutputGroup)
    (targetValue changeFee maxSelectionWeight : ℤ) : Selected :=
  drawLoop sorter utxoPool (targetValue + (changeLower + changeFee)) maxSelectionWeight
    { target := targetValue, algo := .srd } (rng.shuffle (List.range utxoPool.length)) {}

/-- The tracked sums are those of the heap. -/
structure DrawState.Tracks (s : DrawState) : Prop where
  value : s.selectedEffValue = sumOf getSelectionAmount s.heap
  weight : s.weight = sumOf OutputGroup.weight s.heap

variable {maxWeight target : ℤ} {pool : List OutputGroup}

/-- Removing groups leaves a part of the heap that is empty or light enough. -/
theorem removeLeast_spec {heap : List OutputGroup} (hne : heap ≠ []) :
    Ensures (removeLeast maxWeight heap (sumOf getSelectionAmount heap)
        (sumOf weight heap)) (fun _ => False) fun r =>
      r.1.Sublist heap ∧ r.2.1 = sumOf getSelectionAmount r.1 ∧
        r.2.2 = sumOf weight r.1 ∧ (r.1 = [] ∨ r.2.2 ≤ maxWeight) := by
  induction heap with
  | nil => exact absurd rfl hne
  | cons group heap ih =>
    rw [removeLeast, sumOf_cons, sumOf_cons, add_sub_cancel_left, add_sub_cancel_left]
    split_ifs with hheavy
    · exact (ih hheavy.1).imp fun r hr => ⟨hr.1.cons group, hr.2⟩
    · refine ⟨sublist_cons_self group heap, rfl, rfl, ?_⟩
      by_cases hempty : heap = []
      · exact Or.inl hempty
      · exact Or.inr (not_lt.mp fun hgt => hheavy ⟨hempty, hgt⟩)

variable (sorter : Sorter)

/-- **A draw** adds the group and removes others. -/
theorem drawGroup_spec {group : OutputGroup} {s : DrawState}
    (hpos : 0 < group.getSelectionAmount) (h : s.Tracks) :
    Ensures (drawGroup sorter maxWeight group s) (fun _ => False) fun s' =>
      s'.heap.Subperm (group :: s.heap) ∧ s'.Tracks ∧ (s'.heap = [] ∨ s'.weight ≤ maxWeight) := by
  have hperm := sorter.perm lessValuable (group :: s.heap)
  rw [drawGroup, ensure_eq hpos]
  generalize sorter.sort lessValuable (group :: s.heap) = heap at hperm ⊢
  have hvalue : s.selectedEffValue + group.getSelectionAmount
      = sumOf getSelectionAmount heap := by
    rw [sumOf_perm hperm, sumOf_cons, h.value, add_comm]
  have hweight : s.weight + group.weight = sumOf OutputGroup.weight heap := by
    rw [sumOf_perm hperm, sumOf_cons, h.weight, add_comm]
  change Ensures (if s.weight + group.weight > maxWeight then _ else _) _ _
  rw [hvalue, hweight]
  split_ifs with hheavy
  · have hne : heap ≠ [] := by
      rintro rfl
      exact cons_ne_nil _ _ (nil_perm.mp hperm)
    refine (removeLeast_spec hne).bind fun r hr => ?_
    exact ⟨hr.1.subperm.trans hperm.subperm, ⟨hr.2.1, hr.2.2.1⟩, hr.2.2.2⟩
  · exact ⟨hperm.subperm, ⟨rfl, rfl⟩, Or.inr (not_lt.mp hheavy)⟩

/-- **The draw returns** without a fault, and what it returns is sound: by induction over the
positions that are left. -/
theorem drawLoop_spec {result : SelectionResult} {indexes : List ℕ}
    {s : DrawState} (hdis : DisjointGroups pool) (hpos : ∀ g ∈ pool, 0 < g.getSelectionAmount)
    (htarget : 0 < target) (hresult : result.selectedInputs = []) (hweight : result.weight = 0)
    (hinside : ∀ i ∈ indexes, i < pool.length)
    (hpart : (s.heap ++ picked pool indexes).Subperm pool) (h : s.Tracks) :
    Sound pool maxWeight (fun amount => target ≤ amount)
      (drawLoop sorter pool target maxWeight result indexes s) := by
  induction indexes generalizing s with
  | nil => exact sound_noSolution
  | cons i indexes ih =>
    have hi : i < pool.length := hinside i mem_cons_self
    have hget := getElem?_eq_getElem hi
    rw [drawLoop, elementAt_eq hget]
    refine Ensures.bind (r := drawGroup _ _ _ _)
      (drawGroup_spec sorter (hpos _ (getElem_mem hi)) h) fun s' hs' => ?_
    obtain ⟨hheap, htracks, hlight⟩ := hs'
    have hpart' : (s'.heap ++ picked pool indexes).Subperm pool := by
      rw [picked_cons hget] at hpart
      refine ((subperm_append_right _).mpr hheap).trans (List.Subperm.trans ?_ hpart)
      exact perm_middle.symm.subperm
    split_ifs with hreached
    · have hne : s'.heap ≠ [] := by
        intro hnil
        have hvalue := htracks.value
        rw [hnil, sumOf_nil] at hvalue
        omega
      have hsub : s'.heap.Subperm pool := (sublist_append_left _ _).subperm.trans hpart'
      obtain ⟨hadd, hselects⟩ := selects_joined hresult
        hweight hdis hsub (htracks.weight ▸ hlight.resolve_left hne) (htracks.value ▸ hreached)
      rw [hadd]
      exact ⟨_, hselects⟩
    · exact ih (fun j hj => hinside j (mem_cons_of_mem _ hj)) hpart' htracks

/-- **The random draw is sound.** -/
theorem selectCoinsSRD_spec (rng : RandomContext) {changeFee : ℤ} (maxWeight : ℤ)
    (hdis : DisjointGroups pool) (hpos : ∀ g ∈ pool, 0 < g.getSelectionAmount)
    (htarget : 0 < target + (changeLower + changeFee)) :
    Sound pool maxWeight (fun amount => target + (changeLower + changeFee) ≤ amount)
      (selectCoinsSRD sorter rng pool target changeFee maxWeight) := by
  have hperm := rng.perm (range pool.length)
  refine drawLoop_spec sorter hdis hpos htarget rfl rfl ?_ ?_ ⟨rfl, rfl⟩
  · intro i hi
    exact mem_range.mp (hperm.subset hi)
  · have hpicked : (picked pool (rng.shuffle (range pool.length))).Perm pool := by
      have hmap := hperm.filterMap (pool[·]?)
      rwa [← picked, ← picked, picked_range] at hmap
    exact hpicked.subperm

/-! ## Approximating a subset sum -/

/-- The variables of the approximation: the subset of a trial, the best one, and the random bits
used. -/
structure Approximation where
  vfIncluded : List Bool
  nTotal : ℤ := 0
  selectedCoinsWeight : ℤ := 0
  fReachedTarget : Bool := false
  vfBest : List Bool
  nBest : ℤ
  used : ℕ

structure SubsetSum where
  groups : List OutputGroup
  nTargetValue : ℤ
  maxWeight : ℤ

namespace SubsetSum

variable (p : SubsetSum)

/-- Includes a group. If that reaches the target, it is taken out again. -/
def includeGroup (group : OutputGroup) (i : ℕ) (a : Approximation) : Approximation :=
  let nTotal := a.nTotal + group.getSelectionAmount
  let weight := a.selectedCoinsWeight + group.weight
  let vfIncluded := a.vfIncluded.set i true
  if nTotal ≥ p.nTargetValue ∧ weight ≤ p.maxWeight then
    let a := if nTotal < a.nBest then { a with nBest := nTotal, vfBest := vfIncluded } else a
    { a with
      fReachedTarget := true
      nTotal := nTotal - group.getSelectionAmount
      selectedCoinsWeight := weight - group.weight
      vfIncluded := vfIncluded.set i false }
  else
    { a with nTotal := nTotal, selectedCoinsWeight := weight, vfIncluded := vfIncluded }

/-- A pass over the groups: the first includes at random, the second those that are not included.
-/
def pass (rng : RandomContext) (first : Bool) : List OutputGroup → ℕ → Approximation → Approximation
  | [], _, a => a
  | group :: groups, i, a =>
    let chosen := if first then rng.randbool a.used else !a.vfIncluded.getD i false
    let a := if first then { a with used := a.used + 1 } else a
    pass rng first groups (i + 1) (if chosen then p.includeGroup group i a else a)

variable (rng : RandomContext)

/-- A trial: at most two passes from the empty subset. -/
def trial (a : Approximation) : Approximation :=
  let a := p.pass rng true p.groups 0
    { a with
      vfIncluded := List.replicate p.groups.length false
      nTotal := 0
      selectedCoinsWeight := 0
      fReachedTarget := false }
  if a.fReachedTarget then a else p.pass rng false p.groups 0 a

def trials (rng : RandomContext) : ℕ → Approximation → Approximation
  | 0, a => a
  | iterations + 1, a =>
    if a.nBest ≠ p.nTargetValue then trials rng iterations (p.trial rng a) else a

def approximateBestSubset (nTotalLower : ℤ) (used : ℕ) : Approximation :=
  p.trials rng 1000 {
    vfIncluded := []
    vfBest := List.replicate p.groups.length true
    nBest := nTotalLower
    used := used }

/-- The best subset has the amount that is noted, which reaches the target. -/
structure Best (p : SubsetSum) (a : Approximation) : Prop where
  amount : a.nBest = sumOf getSelectionAmount (flagged p.groups a.vfBest)
  least : p.nTargetValue ≤ a.nBest

/-- The tracked sums of a trial are those of its subset. -/
structure Tracks (p : SubsetSum) (a : Approximation) : Prop where
  length : a.vfIncluded.length = p.groups.length
  total : a.nTotal = sumOf getSelectionAmount (flagged p.groups a.vfIncluded)
  weight : a.selectedCoinsWeight = sumOf weight (flagged p.groups a.vfIncluded)
  best : p.Best a

variable {p : SubsetSum} {a : Approximation} {group : OutputGroup} {i : ℕ}

/-- **Including a group** that is not included keeps the sums. -/
theorem Tracks.includeGroup (h : p.Tracks a) (hget : p.groups[i]? = some group)
    (hfree : a.vfIncluded[i]? = some false) : p.Tracks (p.includeGroup group i a) := by
  have htotal := sumOf_flagged_set (f := getSelectionAmount) hget hfree
  have hweight := sumOf_flagged_set (f := OutputGroup.weight) hget hfree
  rw [← h.total] at htotal
  rw [← h.weight] at hweight
  have hrestore : a.vfIncluded.set i false = a.vfIncluded := by
    obtain ⟨hi, hflag⟩ := List.getElem?_eq_some_iff.mp hfree
    rw [← hflag, set_getElem_self]
  rw [SubsetSum.includeGroup]
  split_ifs with hreached hbetter
  · -- the group is out again, and the subset with it is the best one
    refine ⟨by simpa using h.length, ?_, ?_, ⟨?_, hreached.1⟩⟩
    · simp [hrestore, h.total]
    · simp [hrestore, h.weight]
    · simp only [htotal, add_comm]
  · refine ⟨by simpa using h.length, ?_, ?_, ⟨h.best.amount, h.best.least⟩⟩
    · simp [hrestore, h.total]
    · simp [hrestore, h.weight]
  · refine ⟨by simpa using h.length, ?_, ?_, ⟨h.best.amount, h.best.least⟩⟩
    · simp only [htotal, add_comm]
    · simp only [hweight, add_comm]

theorem includeGroup_vfIncluded {j : ℕ} (hij : i ≠ j) :
    (p.includeGroup group i a).vfIncluded[j]? = a.vfIncluded[j]? := by
  rw [includeGroup]
  split_ifs <;> simp only [getElem?_set_ne hij]

variable (rng : RandomContext)

/-- **A pass** keeps the sums. In the first one no group is included before it is
come to; in the second one only a group is taken that is not. -/
theorem Tracks.pass (first : Bool) {groups : List OutputGroup}
    (hdrop : p.groups.drop i = groups) (h : p.Tracks a)
    (hfree : first = true → ∀ j, i ≤ j → j < p.groups.length → a.vfIncluded[j]? = some false) :
    p.Tracks (p.pass rng first groups i a) := by
  induction groups generalizing i a with
  | nil => exact h
  | cons group groups ih =>
    obtain ⟨hget, hrest⟩ := Indexed.getElem?_of_drop hdrop
    obtain ⟨hi, -⟩ := List.getElem?_eq_some_iff.mp hget
    rw [SubsetSum.pass]
    cases first with
    | true =>
      have h' : p.Tracks { a with used := a.used + 1 } := ⟨h.length, h.total, h.weight,
        ⟨h.best.amount, h.best.least⟩⟩
      simp only [if_true]
      split_ifs with hbit
      · refine ih hrest (h'.includeGroup hget (hfree rfl i le_rfl hi)) fun _ j hij hj => ?_
        rw [includeGroup_vfIncluded (by omega)]
        exact hfree rfl j (by omega) hj
      · exact ih hrest h' fun _ j hij hj => hfree rfl j (by omega) hj
    | false =>
      simp only [Bool.false_eq_true, if_false]
      split_ifs with hout
      · have hlt : i < a.vfIncluded.length := h.length ▸ hi
        have hout' : a.vfIncluded[i]? = some false := by
          rw [getD_eq_getElem?_getD, getElem?_eq_getElem hlt, Option.getD_some,
            Bool.not_eq_true'] at hout
          rw [getElem?_eq_getElem hlt, hout]
        exact ih hrest (h.includeGroup hget hout') (by simp)
      · exact ih hrest h (by simp)

theorem Best.trial (h : p.Best a) : p.Best (p.trial rng a) := by
  have hstart : p.Tracks { a with
      vfIncluded := replicate p.groups.length false
      nTotal := 0
      selectedCoinsWeight := 0
      fReachedTarget := false } := by
    refine ⟨by simp, ?_, ?_, ⟨h.amount, h.least⟩⟩
    · simp [flagged_replicate_false]
    · simp [flagged_replicate_false]
  have hfirst := hstart.pass rng true (i := 0) rfl fun _ j _ hj => by simp [hj]
  rw [SubsetSum.trial]
  split_ifs
  · exact hfirst.best
  · exact (hfirst.pass rng false (i := 0) rfl (by simp)).best

theorem Best.trials (iterations : ℕ) (h : p.Best a) : p.Best (p.trials rng iterations a) := by
  induction iterations generalizing a with
  | zero => exact h
  | succ iterations ih =>
    rw [SubsetSum.trials]
    split_ifs
    · exact ih (h.trial rng)
    · exact h

/-- **The approximation** is a subset whose amount reaches the target, if all
groups together do. -/
theorem approximateBestSubset_best (used : ℕ)
    (h : p.nTargetValue ≤ sumOf getSelectionAmount p.groups) : p.Best (p.approximateBestSubset rng
      (sumOf getSelectionAmount p.groups) used) := by
  refine Best.trials rng 1000 ⟨?_, h⟩
  simp [flagged_replicate_true]

end SubsetSum

/-! ## The knapsack solver -/

/-- What the loop over the groups sorts out. -/
structure Sieve where
  applicableGroups : List OutputGroup := []
  nTotalLower : ℤ := 0
  lowestLarger : Option OutputGroup := none
  maxWeightExceeded : Bool := false

structure KnapsackTask where
  target : ℤ
  changeTarget : ℤ
  maxWeight : ℤ

namespace KnapsackTask

variable (t : KnapsackTask)

/-- The loop over the groups, which ends with one that matches the target. -/
def sieve : List OutputGroup → Sieve → OutputGroup ⊕ Sieve
  | [], s => .inr s
  | group :: groups, s =>
    if group.weight > t.maxWeight then sieve groups { s with maxWeightExceeded := true }
    else if group.getSelectionAmount = t.target then .inl group
    else if group.getSelectionAmount < t.target + t.changeTarget then
      sieve groups { s with
        applicableGroups := s.applicableGroups ++ [group]
        nTotalLower := s.nTotalLower + group.getSelectionAmount }
    else if s.lowestLarger.all fun larger =>
        group.getSelectionAmount < larger.getSelectionAmount then
      sieve groups { s with lowestLarger := some group }
    else sieve groups s

/-- The two approximations, of the target and of the target with its change. -/
def approximate (sorter : Sorter) (rng : RandomContext) (s : Sieve) :
    List OutputGroup × Approximation :=
  let groups := sorter.sort descending s.applicableGroups
  let a := SubsetSum.approximateBestSubset ⟨groups, t.target, t.maxWeight⟩ rng s.nTotalLower 0
  if a.nBest ≠ t.target ∧ s.nTotalLower ≥ t.target + t.changeTarget then
    (groups, SubsetSum.approximateBestSubset ⟨groups, t.target + t.changeTarget, t.maxWeight⟩ rng
      s.nTotalLower a.used)
  else (groups, a)

/-- The end of the solver: its last `Assume`. -/
def finish (result : SelectionResult) : Selected := do
  ensure (result.weight ≤ t.maxWeight)
  return .ok result

/-- The best subset, or the smallest larger group if that is too heavy. -/
def takeSubset (chosen : List OutputGroup) (lowestLarger : Option OutputGroup)
    (result : SelectionResult) : Selected := do
  let result ← chosen.foldlM SelectionResult.addInput result
  if result.weight > t.maxWeight then
    match lowestLarger with
    | none => return .error errorMaxWeightExceeded
    | some larger => t.finish (← result.clear.addInput larger)
  else t.finish result

/-- What the solver does when no group and not all applicable ones match. -/
def solve (sorter : Sorter) (rng : RandomContext) (s : Sieve) (result : SelectionResult) :
    Selected :=
  if s.nTotalLower < t.target then
    match s.lowestLarger with
    | none => noSolution s.maxWeightExceeded
    | some larger => do return .ok (← result.addInput larger)
  else
    let (groups, a) := t.approximate sorter rng s
    match s.lowestLarger with
    | none => t.takeSubset (flagged groups a.vfBest) none result
    | some larger =>
      if (a.nBest ≠ t.target ∧ a.nBest < t.target + t.changeTarget) ∨
          larger.getSelectionAmount ≤ a.nBest then do
        t.finish (← result.addInput larger)
      else t.takeSubset (flagged groups a.vfBest) (some larger) result

end KnapsackTask

def knapsackSolver (sorter : Sorter) (rng : RandomContext) (groups : List OutputGroup)
    (nTargetValue changeTarget maxSelectionWeight : ℤ) : Selected :=
  let t : KnapsackTask := ⟨nTargetValue, changeTarget, maxSelectionWeight⟩
  let result : SelectionResult := { target := nTargetValue, algo := .knapsack }
  match t.sieve (rng.shuffle groups) {} with
  | .inl group => do return .ok (← result.addInput group)
  | .inr s =>
    if s.nTotalLower = nTargetValue then do
      let result ← s.applicableGroups.foldlM SelectionResult.addInput result
      if result.weight ≤ maxSelectionWeight then return .ok result
      else t.solve sorter rng { s with maxWeightExceeded := true } result.clear
    else t.solve sorter rng s result

namespace KnapsackTask

variable {t : KnapsackTask} {pool groups : List OutputGroup} {s : Sieve} {group : OutputGroup}
  {r : SelectionResult}

/-- A group of the pool that is light enough and worth at least some amount. -/
def Suits (t : KnapsackTask) (pool : List OutputGroup) (least : ℤ) (group : OutputGroup) : Prop :=
  group ∈ pool ∧ group.weight ≤ t.maxWeight ∧ least ≤ group.getSelectionAmount

/-- What is sorted out of the groups, those that are left aside. -/
structure Sieved (t : KnapsackTask) (pool groups : List OutputGroup) (s : Sieve) : Prop where
  part : (s.applicableGroups ++ groups).Subperm pool
  total : s.nTotalLower = sumOf getSelectionAmount s.applicableGroups
  larger : ∀ larger ∈ s.lowestLarger, t.Suits pool (t.target + t.changeTarget) larger

/-- **What the loop over the groups ends with.** -/
theorem sieve_spec (h : t.Sieved pool groups s) : match t.sieve groups s with
    | .inl group => t.Suits pool t.target group
    | .inr s' => t.Sieved pool [] s' := by
  induction groups generalizing s with
  | nil => exact h
  | cons group groups ih =>
    have hmem : group ∈ pool := h.part.subset (by simp)
    have hpart : (s.applicableGroups ++ groups).Subperm pool :=
      ((sublist_cons_self group groups).append_left _).subperm.trans h.part
    rw [sieve]
    split_ifs with hheavy hmatch hlower hlarger
    · exact ih ⟨hpart, h.total, h.larger⟩
    · exact ⟨hmem, not_lt.mp hheavy, hmatch.ge⟩
    · refine ih ⟨by simpa using h.part, ?_, h.larger⟩
      rw [sumOf_append, sumOf_cons, sumOf_nil, add_zero, ← h.total]
    · refine ih ⟨hpart, h.total, ?_⟩
      rintro larger ⟨⟩
      exact ⟨hmem, not_lt.mp hheavy, not_lt.mp hlower⟩
    · exact ih ⟨hpart, h.total, h.larger⟩

/-- **A single group** makes a sound result. -/
theorem Suits.addInput {least : ℤ} {next : SelectionResult → Selected}
    (hr : r.selectedInputs = []) (hrw : r.weight = 0) (hdis : DisjointGroups pool)
    (h : t.Suits pool least group)
    (hnext : ∀ r', Selects pool t.maxWeight (fun amount => least ≤ amount) [group] r' →
      Sound pool t.maxWeight (fun amount => least ≤ amount) (next r')) :
    Sound pool t.maxWeight (fun amount => least ≤ amount) (r.addInput group >>= next) := by
  obtain ⟨hmem, hweight, hamount⟩ := h
  have hsum (f : OutputGroup → ℤ) : sumOf f [group] = f group := by simp
  obtain ⟨hadd, hselects⟩ := selects_joined hr hrw hdis
    (singleton_subperm_iff.mpr hmem) (hsum weight ▸ hweight)
    (hsum getSelectionAmount ▸ hamount)
  simp only [foldlM_cons, foldlM_nil, bind_pure] at hadd
  rw [hadd]
  exact hnext _ hselects

theorem Suits.mono {least least' : ℤ} (h : t.Suits pool least group) (hle : least' ≤ least) :
    t.Suits pool least' group :=
  ⟨h.1, h.2.1, hle.trans h.2.2⟩

theorem sound_finish {chosen : List OutputGroup}
    (h : Selects pool t.maxWeight (fun amount => t.target ≤ amount) chosen r) :
    Sound pool t.maxWeight (fun amount => t.target ≤ amount) (t.finish r) := by
  rw [finish, ensure_eq h.weight_le]
  exact ⟨chosen, h⟩

/-- **The approximations** give a subset whose amount reaches the target. -/
theorem approximate_spec (sorter : Sorter) (rng : RandomContext)
    (hchange : 0 ≤ t.changeTarget) (h : t.Sieved pool [] s) (hlower : t.target ≤ s.nTotalLower) :
    (t.approximate sorter rng s).1.Perm s.applicableGroups ∧ t.target ≤ sumOf getSelectionAmount
        (flagged (t.approximate sorter rng s).1 (t.approximate sorter rng s).2.vfBest) := by
  have hperm := sorter.perm descending s.applicableGroups
  have htotal : s.nTotalLower
      = sumOf getSelectionAmount (sorter.sort descending s.applicableGroups) := by
    rw [sumOf_perm hperm, h.total]
  rw [approximate]
  generalize sorter.sort descending s.applicableGroups = groups at hperm htotal ⊢
  rw [htotal] at hlower ⊢
  split_ifs with hagain
  · have hbest := SubsetSum.approximateBestSubset_best
      (p := ⟨groups, t.target + t.changeTarget, t.maxWeight⟩) rng
      (SubsetSum.approximateBestSubset ⟨groups, t.target, t.maxWeight⟩ rng
        (sumOf getSelectionAmount groups) 0).used hagain.2
    refine ⟨hperm, ?_⟩
    rw [← hbest.amount]
    exact (le_add_of_nonneg_right hchange).trans hbest.least
  · have hbest := SubsetSum.approximateBestSubset_best (p := ⟨groups, t.target, t.maxWeight⟩) rng 0
      hlower
    exact ⟨hperm, hbest.amount ▸ hbest.least⟩

/-- **Taking a subset** that reaches the target is sound: it is taken if it is
light enough, and the larger group is otherwise. -/
theorem takeSubset_spec {chosen : List OutputGroup} {larger : Option OutputGroup}
    (hr : r.selectedInputs = []) (hrw : r.weight = 0) (hdis : DisjointGroups pool)
    (hpart : chosen.Subperm pool) (hamount : t.target ≤ sumOf getSelectionAmount chosen)
    (hlarger : ∀ g ∈ larger, t.Suits pool t.target g) :
    Sound pool t.maxWeight (fun amount => t.target ≤ amount) (t.takeSubset chosen larger r) := by
  obtain ⟨hadd, hselects⟩ := selects_joined hr hrw hdis
    hpart le_rfl hamount
  rw [takeSubset, hadd]
  change Sound _ _ _ (if (r.joined chosen).weight > t.maxWeight then _ else _)
  split_ifs with hheavy
  · cases larger with
    | none => trivial
    | some g => exact (hlarger g rfl).addInput rfl rfl hdis fun _ => sound_finish
  · exact sound_finish { hselects with weight_le := not_lt.mp hheavy }

theorem solve_spec (sorter : Sorter) (rng : RandomContext) (hr : r.selectedInputs = [])
    (hrw : r.weight = 0) (hdis : DisjointGroups pool) (hchange : 0 ≤ t.changeTarget)
    (h : t.Sieved pool [] s) :
    Sound pool t.maxWeight (fun amount => t.target ≤ amount) (t.solve sorter rng s r) := by
  have hsuits : ∀ g ∈ s.lowestLarger, t.Suits pool t.target g :=
    fun g hg => (h.larger g hg).mono (le_add_of_nonneg_right hchange)
  rw [solve]
  split_ifs with hlower
  · cases hlarger : s.lowestLarger with
    | none => exact sound_noSolution
    | some g => exact (hsuits g hlarger).addInput hr hrw hdis fun _ hselects => ⟨[g], hselects⟩
  · obtain ⟨hperm, hamount⟩ := approximate_spec sorter rng hchange h (not_lt.mp hlower)
    have hpart : (flagged (t.approximate sorter rng s).1
        (t.approximate sorter rng s).2.vfBest).Subperm pool :=
      ((flagged_sublist _ _).subperm.trans hperm.subperm).trans (by simpa using h.part)
    cases hlarger : s.lowestLarger with
    | none => exact takeSubset_spec hr hrw hdis hpart hamount (by simp)
    | some g =>
      have hg := hsuits g hlarger
      simp only
      split_ifs
      · exact hg.addInput hr hrw hdis fun _ => sound_finish
      · refine takeSubset_spec hr hrw hdis hpart hamount ?_
        rintro g' ⟨⟩
        exact hg

end KnapsackTask

/-- **The knapsack solver is sound** for a change target that is not negative: it returns, and a
result is a union of groups within the weight that pays the target. -/
theorem knapsackSolver_spec (sorter : Sorter) (rng : RandomContext) {changeTarget : ℤ}
    (maxWeight : ℤ) (hdis : DisjointGroups pool) (hchange : 0 ≤ changeTarget) :
    Sound pool maxWeight (fun amount => target ≤ amount)
      (knapsackSolver sorter rng pool target changeTarget maxWeight) := by
  have hsieved := KnapsackTask.sieve_spec (t := ⟨target, changeTarget, maxWeight⟩)
    (s := {}) ⟨(rng.perm pool).subperm, rfl, by simp⟩
  rw [knapsackSolver]
  cases hcase : KnapsackTask.sieve ⟨target, changeTarget, maxWeight⟩ (rng.shuffle pool) {} with
  | inl group =>
    rw [hcase] at hsieved
    exact hsieved.addInput rfl rfl hdis fun _ hselects => ⟨[group], hselects⟩
  | inr s =>
    rw [hcase] at hsieved
    simp only
    split_ifs with hexact
    · have hpart : s.applicableGroups.Subperm pool := by simpa using hsieved.part
      have hamount : target ≤ sumOf getSelectionAmount s.applicableGroups := by
        rw [← hsieved.total, hexact]
      obtain ⟨hadd, hselects⟩ := selects_joined
        (r := { target := target, algo := .knapsack }) rfl rfl hdis hpart le_rfl hamount
      rw [hadd]
      change Sound _ _ _ (if (SelectionResult.joined _ s.applicableGroups).weight ≤ maxWeight
        then _ else _)
      split_ifs with hlight
      · exact ⟨_, { hselects with weight_le := hlight }⟩
      · exact KnapsackTask.solve_spec sorter rng rfl rfl hdis hchange
          ⟨hsieved.part, hsieved.total, hsieved.larger⟩
    · exact KnapsackTask.solve_spec sorter rng rfl rfl hdis hchange hsieved

/-! ## The four algorithms -/

/-- **Coin selection is sound.** Take groups that share no coin and a positive target. Each
algorithm returns without a failing assertion, and its result is a union of groups, no coin twice,
within the maximum weight and of the amount it is to select. The knapsack solver takes no negative
change target, branch and bound needs groups of one kind, CoinGrinder a pool or an amount to look
for, the random draw an amount. -/
theorem coinSelection_sound (sorter : Sorter) (rng : RandomContext) (pool : List OutputGroup)
    (target changeTarget changeFee costOfChange maxWeight : ℤ)
    (hdis : DisjointGroups pool) (htarget : 0 < target) :
    ((∀ g ∈ pool, 0 < g.getSelectionAmount) →
      (∀ subtract, (∀ g ∈ pool, g.subtractFeeOutputs = subtract) →
        Sound pool maxWeight (fun amount => target ≤ amount ∧ amount ≤ target + costOfChange)
          (selectCoinsBnB sorter pool target costOfChange maxWeight)) ∧
      (pool ≠ [] ∨ 0 < target + changeTarget →
        Sound pool maxWeight (fun amount => target + changeTarget ≤ amount)
          (coinGrinder sorter pool target changeTarget maxWeight)) ∧
      (0 < target + (changeLower + changeFee) →
        Sound pool maxWeight (fun amount => target + (changeLower + changeFee) ≤ amount)
          (selectCoinsSRD sorter rng pool target changeFee maxWeight))) ∧
    (0 ≤ changeTarget → Sound pool maxWeight (fun amount => target ≤ amount)
      (knapsackSolver sorter rng pool target changeTarget maxWeight)) := by
  refine ⟨fun hpos => ⟨fun subtract hflag => ?_, fun hne => ?_, fun hlower => ?_⟩,
    fun hchange => ?_⟩
  · exact selectCoinsBnB_spec sorter costOfChange maxWeight hdis hpos hflag htarget
  · exact coinGrinder_spec sorter maxWeight hdis hpos hne
  · exact selectCoinsSRD_spec sorter rng maxWeight hdis hpos hlower
  · exact knapsackSolver_spec sorter rng maxWeight hdis hchange

/-- A group of one coin, of one byte of input. -/
def coinGroup (n : UInt32) (nValue fee : ℤ) (subtract : Bool) : OutputGroup where
  outputs := [{ outpoint := ⟨0, n⟩, nValue := nValue, inputBytes := 1, fee := some fee }]
  value := nValue
  effectiveValue := nValue - fee
  fee := fee
  longTermFee := 0
  longTermFeerate := ⟨0, 0⟩
  subtractFeeOutputs := subtract
  weight := 1
  priced := by simp
  value_eq := by simp
  effectiveValue_eq := by simp [effective, feePaid]
  fee_eq := by simp [feePaid]
  longTermFee_eq := by simp
  weight_eq := by simp [inputWeight, witnessScaleFactor]

def insertionSorter : Sorter where
  sort lt groups := groups.insertionSort fun a b => !lt b a
  perm _ groups := groups.perm_insertionSort _

/-- Random numbers that leave every order as it is and include every group. -/
def steadyContext : RandomContext where
  shuffle l := l
  randbool _ := true
  perm l := List.Perm.refl l

set_option maxRecDepth 4096 in
/-- Two coins of which either pays the target; the change fee is negative. -/
theorem coinSelection_sound_pair :
    let pool := [coinGroup 0 7 1 false, coinGroup 1 5 1 false]
    DisjointGroups pool ∧
      Sound pool 10 (fun amount => 3 ≤ amount ∧ amount ≤ 3 + 1)
        (selectCoinsBnB insertionSorter pool 3 1 10) ∧
      Sound pool 10 (fun amount => 3 + 2 ≤ amount) (coinGrinder insertionSorter pool 3 2 10) ∧
      Sound pool 10 (fun amount => 3 + (changeLower + -50000) ≤ amount)
        (selectCoinsSRD insertionSorter steadyContext pool 3 (-50000) 10) ∧
      Sound pool 10 (fun amount => 3 ≤ amount)
        (knapsackSolver insertionSorter steadyContext pool 3 2 10) := by
  intro pool
  have hdis : DisjointGroups pool := by
    rw [DisjointGroups]
    decide
  obtain ⟨hpositive, hknapsack⟩ := coinSelection_sound insertionSorter steadyContext pool 3 2
    (-50000) 1 10 hdis (by decide)
  obtain ⟨hbnb, hgrinder, hdraw⟩ := hpositive (by decide)
  exact ⟨hdis, hbnb false (by decide), hgrinder (.inl (by decide)), hdraw (by decide),
    hknapsack (by decide)⟩

/-- **What is asked of each algorithm matters.** With a negative change target the knapsack solver
takes 7 for a target of 10. On groups of different kinds the assertion of branch and bound fails.
With nothing to look for CoinGrinder reads behind an empty pool, and the random draw ignores the
weight. -/
theorem coinSelection_boundary :
    (∃ r, knapsackSolver insertionSorter steadyContext [coinGroup 0 7 0 false] 10 (-5) 100
        = .ok (.ok r) ∧ r.selectedInputs = (coinGroup 0 7 0 false).outputs ∧
      sumOf getSelectionAmount [coinGroup 0 7 0 false] < 10) ∧
    selectCoinsBnB insertionSorter [coinGroup 0 5 1 true, coinGroup 1 6 1 false] 10 0 100
      = .error .assertion ∧ coinGrinder insertionSorter [] 1 (-1) 100 = .error .outOfRange ∧
    ∃ r, selectCoinsSRD insertionSorter steadyContext [coinGroup 0 7 0 false] 1 (-50001) (-1)
        = .ok (.ok r) ∧ r.weight = 0 := by
  refine ⟨⟨_, rfl, rfl, by decide⟩, ?_, ?_, _, rfl, rfl⟩
  · decide +kernel
  · decide +kernel

end Quarlcoin.Wallet
