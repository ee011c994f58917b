import Quarlcoin.Wallet.CoinSelection
/-!
# Branch and bound

`SelectCoinsBnB` walks the subsets of the sorted pool depth first and keeps the least
wasteful one whose amount is between the target and the target plus the cost of a change.
The selection is a stack here, its last position at the head.
-/

namespace Quarlcoin.Wallet

open Picking OutputGroup SelectionResult List

def totalTries : ℕ := 100000

/-! ## The model -/

structure BnbState where
  currValue : ℤ := 0
  currSelection : List ℕ := []
  currSelectionWeight : ℤ := 0
  currAvailableValue : ℤ
  currWaste : ℤ := 0
  bestSelection : List ℕ := []
  bestWaste : ℤ := maxMoney.toInt
  maxTxWeightExceeded : Bool := false

structure BnbTask where
  pool : List OutputGroup
  target : ℤ
  costOfChange : ℤ
  maxWeight : ℤ
  isFeerateHigh : Bool

namespace BnbTask

variable (t : BnbTask) (s : BnbState)

/-- The conditions for starting a backtrack, with what is noted under them. -/
def evaluate : BnbState × Bool :=
  if s.currValue + s.currAvailableValue < t.target ∨
      s.currValue > t.target + t.costOfChange ∨
      (s.currWaste > s.bestWaste ∧ t.isFeerateHigh) then
    (s, true)
  else if s.currSelectionWeight > t.maxWeight then
    ({ s with maxTxWeightExceeded := true }, true)
  else if s.currValue ≥ t.target then
    let currWaste := s.currWaste + (s.currValue - t.target)
    if currWaste ≤ s.bestWaste then
      ({ s with bestSelection := s.currSelection, bestWaste := currWaste }, true)
    else (s, true)
  else (s, false)

/-- The loop that adds omitted groups back, down to the last one that was included. -/
def addBack (last : ℕ) : ℕ → ℤ → Except Fault (ℕ × ℤ)
  | 0, available => .ok (0, available)
  | i + 1, available =>
    if i + 1 > last then do
      let utxo ← elementAt t.pool (i + 1)
      addBack last i (available + utxo.getSelectionAmount)
    else .ok (i + 1, available)

/-- Leaves the last included group out: the state after it and its position. -/
def omitLast (i last : ℕ) (rest : List ℕ) (s : BnbState) : Except Fault (ℕ × BnbState) := do
  let start ← decrement i
  let (i, available) ← t.addBack last start s.currAvailableValue
  ensure (i = last)
  let utxo ← elementAt t.pool i
  return (i, { s with
    currAvailableValue := available
    currValue := s.currValue - utxo.getSelectionAmount
    currWaste := s.currWaste - (utxo.fee - utxo.longTermFee)
    currSelectionWeight := s.currSelectionWeight - utxo.weight
    currSelection := rest })

/-- Not if the one before has the same value and the same fee and was left out. -/
def worthIncluding (i : ℕ) (utxo : OutputGroup) : List ℕ → Except Fault Bool
  | [] => .ok true
  | last :: _ => do
    let before ← decrement i
    if before = last then return true
    else
      let previous ← elementAt t.pool before
      return utxo.getSelectionAmount ≠ previous.getSelectionAmount ∨ utxo.fee ≠ previous.fee

/-- Goes on to the next group, which is included if it is worth it. -/
def goForward (i : ℕ) (s : BnbState) : Except Fault BnbState := do
  let utxo ← elementAt t.pool i
  let s := { s with currAvailableValue := s.currAvailableValue - utxo.getSelectionAmount }
  if ← t.worthIncluding i utxo s.currSelection then
    return { s with
      currSelection := i :: s.currSelection
      currValue := s.currValue + utxo.getSelectionAmount
      currWaste := s.currWaste + (utxo.fee - utxo.longTermFee)
      currSelectionWeight := s.currSelectionWeight + utxo.weight }
  else return s

/-- The search loop, by the tries that are left. -/
def search : ℕ → ℕ → BnbState → Except Fault BnbState
  | 0, _, s => .ok s
  | tries + 1, i, s =>
    let (s, backtrack) := t.evaluate s
    if backtrack then
      match s.currSelection with
      | [] => .ok s
      | last :: rest => do
        let (i, s) ← t.omitLast i last rest s
        search tries (i + 1) s
    else do
      let s ← t.goForward i s
      search tries (i + 1) s

/-- The end of the search: the waste of the best selection has to be the tracked one. -/
def result : Selected :=
  if s.bestSelection = [] then noSolution s.maxTxWeightExceeded
  else do
    let result ← addInputsAt t.pool { target := t.target, algo := .bnb }
      s.bestSelection.reverse
    let result ← result.recalculateWaste t.costOfChange t.costOfChange 0
    let waste ← result.getWaste
    ensure (s.bestWaste = waste)
    return .ok result

end BnbTask

/-- The sum of the selection amounts, each of which is asserted to be positive. -/
def totalAvailable (pool : List OutputGroup) : Except Fault ℤ :=
  accumulate (fun utxo => do
    ensure (utxo.getSelectionAmount > 0)
    return utxo.getSelectionAmount) 0 pool

def selectCoinsBnB (sorter : Sorter) (utxoPool : List OutputGroup)
    (selectionTarget costOfChange maxSelectionWeight : ℤ) : Selected := do
  let currAvailableValue ← totalAvailable utxoPool
  if currAvailableValue < selectionTarget then return .error ""
  else
    let pool := sorter.sort descending utxoPool
    let first ← elementAt pool 0
    let task : BnbTask := {
      pool := pool
      target := selectionTarget
      costOfChange := costOfChange
      maxWeight := maxSelectionWeight
      isFeerateHigh := first.fee > first.longTermFee }
    let s ← task.search totalTries 0 { currAvailableValue := currAvailableValue }
    task.result s

/-! ## What the search tracks -/

variable {last : ℕ} {pool : List OutputGroup} {subtract : Bool}

namespace BnbTask

variable {t : BnbTask} {i : ℕ} {s : BnbState}

/-- The tracked sums are those of the selection and of the pool from the next position on. -/
structure Tracks (t : BnbTask) (i : ℕ) (s : BnbState) : Prop where
  bound : i ≤ t.pool.length
  stacked : Stacked i s.currSelection
  value : s.currValue = sumOf getSelectionAmount (picked t.pool s.currSelection)
  waste : s.currWaste = sumOf wasteOf (picked t.pool s.currSelection)
  weight : s.currSelectionWeight = sumOf OutputGroup.weight (picked t.pool s.currSelection)
  available : s.currAvailableValue = sumOf getSelectionAmount (t.pool.drop i)

/-- A selection that the search was for, with its waste. -/
structure Solution (t : BnbTask) (sel : List ℕ) (waste : ℤ) : Prop where
  nodup : sel.Nodup
  inside : ∀ j ∈ sel, j < t.pool.length
  weight_le : sumOf OutputGroup.weight (picked t.pool sel) ≤ t.maxWeight
  least : t.target ≤ sumOf getSelectionAmount (picked t.pool sel)
  most : sumOf getSelectionAmount (picked t.pool sel) ≤ t.target + t.costOfChange
  waste_eq : waste = sumOf wasteOf (picked t.pool sel)
    + (sumOf getSelectionAmount (picked t.pool sel) - t.target)

/-- The best selection so far, if there is one, is a solution. -/
def Best (t : BnbTask) (s : BnbState) : Prop :=
  s.bestSelection ≠ [] → t.Solution s.bestSelection s.bestWaste

variable (h : t.Tracks i s)
include h

theorem Tracks.evaluate : t.Tracks i (t.evaluate s).1 := by
  rw [BnbTask.evaluate]
  split_ifs
  · exact h
  · exact { h with }
  · simp only
    split_ifs
    · exact { h with }
    · exact h
  · exact h

/-- **The best selection stays a solution** when the current one replaces it. -/
theorem Best.evaluate (hbest : t.Best s) : t.Best (t.evaluate s).1 := by
  rw [BnbTask.evaluate]
  split_ifs with hcut hheavy hreached
  · exact hbest
  · exact hbest
  · simp only
    split_ifs
    · intro _
      have hvalue := h.value
      have hwaste := h.waste
      have hweight := h.weight
      refine ⟨h.stacked.nodup, fun j hj => (h.stacked.lt hj).trans_le h.bound, ?_, ?_, ?_, ?_⟩
      · exact hweight ▸ not_lt.mp hheavy
      · exact hvalue ▸ hreached
      · rw [not_or, not_or] at hcut
        exact hvalue ▸ not_lt.mp hcut.2.1
      · rw [← hvalue, ← hwaste]
    · exact hbest
  · exact hbest

theorem lt_length_of_evaluate (hgo : (t.evaluate s).2 = false) : i < t.pool.length := by
  rw [BnbTask.evaluate] at hgo
  split_ifs at hgo with hcut hheavy hreached
  · simp only at hgo
    split_ifs at hgo
  · apply lt_length_of_sumOf_drop_pos
    rw [← h.available]
    omega

omit h

/-! ## Backtracking -/

/-- **Adding back** everything above the last included group restores what was
available after it. -/
theorem addBack_eq {i : ℕ} {available : ℤ} (hle : last ≤ i) (hi : i < t.pool.length)
    (havailable : available = sumOf getSelectionAmount (t.pool.drop (i + 1))) :
    t.addBack last i available = .ok (last, sumOf getSelectionAmount (t.pool.drop (last + 1))) := by
  induction i generalizing available with
  | zero =>
    obtain rfl := Nat.le_zero.mp hle
    rw [addBack, havailable]
  | succ i ih =>
    rw [addBack]
    by_cases hlast : i + 1 > last
    · have hget := getElem?_eq_getElem hi
      rw [if_pos hlast, elementAt_eq hget]
      refine ih (by omega) (by omega) ?_
      rw [havailable, sumOf_drop hget, add_comm]
    · obtain rfl : i + 1 = last := by omega
      rw [if_neg hlast, havailable]

theorem omitLast_spec {rest : List ℕ} (h : t.Tracks i s) (hsel : s.currSelection = last :: rest) :
    Ensures (t.omitLast i last rest s) (fun _ => False) fun r =>
      t.Tracks (r.1 + 1) r.2 ∧ r.2.bestSelection = s.bestSelection ∧
        r.2.bestWaste = s.bestWaste := by
  have hlast : last < i := h.stacked.lt (hsel ▸ mem_cons_self)
  obtain ⟨j, rfl⟩ : ∃ j, i = j + 1 := ⟨i - 1, by omega⟩
  have hin : last < t.pool.length := hlast.trans_le h.bound
  have hget := getElem?_eq_getElem hin
  change Ensures (t.addBack last j s.currAvailableValue >>= _) _ _
  rw [addBack_eq (by omega) h.bound h.available]
  change Ensures (ensure (last = last) >>= _) _ _
  rw [ensure_eq rfl]
  rw [elementAt_eq hget]
  refine ⟨⟨hin, ?_, ?_, ?_, ?_, rfl⟩, rfl, rfl⟩
  · exact (hsel ▸ h.stacked).pop.mono (Nat.le_succ _)
  · have hvalue := h.value
    rw [hsel, sumOf_picked_cons hget] at hvalue
    simp only
    omega
  · have hwaste := h.waste
    rw [hsel, sumOf_picked_cons hget, wasteOf] at hwaste
    simp only
    omega
  · have hweight := h.weight
    rw [hsel, sumOf_picked_cons hget] at hweight
    simp only
    omega

/-! ## Going forward -/

theorem worthIncluding_spec {utxo : OutputGroup} (h : t.Tracks i s) :
    Ensures (t.worthIncluding i utxo s.currSelection) (fun _ => False) fun _ => True := by
  cases hsel : s.currSelection with
  | nil => trivial
  | cons last rest =>
    have hlast : last < i := h.stacked.lt (hsel ▸ mem_cons_self)
    obtain ⟨j, rfl⟩ : ∃ j, i = j + 1 := ⟨i - 1, by omega⟩
    change Ensures (if j = last then _ else _) _ _
    split_ifs
    · trivial
    · have hj : j < t.pool.length := h.bound
      rw [elementAt_eq (getElem?_eq_getElem hj)]
      trivial

theorem goForward_spec (h : t.Tracks i s) (hi : i < t.pool.length) :
    Ensures (t.goForward i s) (fun _ => False) fun s' =>
      t.Tracks (i + 1) s' ∧ s'.bestSelection = s.bestSelection ∧ s'.bestWaste = s.bestWaste := by
  have hget := getElem?_eq_getElem hi
  have havailable := h.available
  rw [sumOf_drop hget] at havailable
  rw [goForward, elementAt_eq hget]
  refine (worthIncluding_spec h).bind fun worth _ => ?_
  cases worth with
  | true =>
    refine ⟨⟨hi, h.stacked.push, ?_, ?_, ?_, ?_⟩, rfl, rfl⟩
    · simp only [sumOf_picked_cons hget, h.value]
      omega
    · simp only [sumOf_picked_cons hget, h.waste, wasteOf]
      omega
    · simp only [sumOf_picked_cons hget, h.weight]
      omega
    · simp only
      omega
  | false =>
    refine ⟨⟨hi, h.stacked.mono (Nat.le_succ _), h.value, h.waste, h.weight, ?_⟩, rfl, rfl⟩
    simp only
    omega

/-! ## The whole search -/

/-- **The search returns**, without a fault, and its best selection is a
solution: by induction over the tries that are left. -/
theorem search_spec (tries : ℕ) (h : t.Tracks i s) (hbest : t.Best s) :
    Ensures (t.search tries i s) (fun _ => False) t.Best := by
  induction tries generalizing i s with
  | zero => exact hbest
  | succ tries ih =>
    have htracks := h.evaluate
    have hbest' := hbest.evaluate h
    rw [search]
    cases hback : (t.evaluate s).2 with
    | true =>
      simp only [hback]
      cases hsel : (t.evaluate s).1.currSelection with
      | nil => exact hbest'
      | cons last rest =>
        refine (omitLast_spec htracks hsel).bind fun r hr => ih hr.1 ?_
        rw [Best, hr.2.1, hr.2.2]
        exact hbest'
    | false =>
      simp only [hback]
      refine (goForward_spec htracks (lt_length_of_evaluate h hback)).bind fun s' hs' => ih hs'.1 ?_
      rw [Best, hs'.2.1, hs'.2.2]
      exact hbest'

/-- **A solution becomes a result**, and the waste that was tracked is the one
that is computed from the coins. -/
theorem result_spec (hperm : t.pool.Perm pool)
    (hdis : DisjointGroups pool) (hflag : ∀ g ∈ pool, g.subtractFeeOutputs = subtract)
    (htarget : 0 < t.target) (hbest : t.Best s) :
    Sound pool t.maxWeight (fun amount => t.target ≤ amount ∧ amount ≤ t.target + t.costOfChange)
      (t.result s) := by
  rw [result]
  split_ifs with hempty
  · exact sound_noSolution
  obtain ⟨hnodup, hinside, hweight, hleast, hmost, hwaste⟩ := hbest hempty
  obtain ⟨chosen, hadd, hselects, hsum⟩ := selects_addInputsAt
    (R := fun amount => t.target ≤ amount ∧ amount ≤ t.target + t.costOfChange)
    (r := { target := t.target, algo := .bnb }) rfl rfl hperm hdis hnodup hinside hweight
    ⟨hleast, hmost⟩
  rw [← hsum] at hleast hmost
  rw [← hsum, ← hsum] at hwaste
  have hchosen : ∀ g ∈ chosen, g.subtractFeeOutputs = subtract :=
    fun g hg => hflag g (hselects.part.subset hg)
  have hcoins : chosen.flatMap outputs ≠ [] := flatMap_outputs_ne_nil (htarget.trans_le hleast)
  have hgroups : chosen ≠ [] := fun hnil => hcoins (hnil ▸ rfl)
  rw [hadd]
  change Ensures (recalculateWaste _ _ _ _ >>= _) _ _
  rw [recalculateWaste_eq hchosen hselects.union
    (usesEffective_eq hchosen hgroups) rfl (hselects.union ▸ hcoins) hleast hmost]
  change Ensures (ensure (s.bestWaste = sumOf wasteOf chosen
    + (sumOf getSelectionAmount chosen - t.target)) >>= _) _ _
  rw [ensure_eq hwaste]
  exact ⟨chosen, { hselects with }⟩

end BnbTask

theorem totalAvailable_eq (hpos : ∀ g ∈ pool, 0 < g.getSelectionAmount) :
    totalAvailable pool = .ok (sumOf getSelectionAmount pool) := by
  rw [totalAvailable, accumulate_eq, zero_add]
  intro g hg
  rw [ensure_eq (hpos g hg)]
  rfl

/-- **Branch and bound is sound**: the search returns, every assertion in it holds, and a result
is a union of groups within the weight whose amount is between the target and the target plus the
cost of a change. -/
theorem selectCoinsBnB_spec (sorter : Sorter)
    {target : ℤ} (costOfChange maxWeight : ℤ) (hdis : DisjointGroups pool)
    (hpos : ∀ g ∈ pool, 0 < g.getSelectionAmount)
    (hflag : ∀ g ∈ pool, g.subtractFeeOutputs = subtract) (htarget : 0 < target) :
    Sound pool maxWeight (fun amount => target ≤ amount ∧ amount ≤ target + costOfChange)
      (selectCoinsBnB sorter pool target costOfChange maxWeight) := by
  rw [selectCoinsBnB, totalAvailable_eq hpos]
  change Sound _ _ _ (if sumOf getSelectionAmount pool < target then _ else _)
  split_ifs with hfunds
  · trivial
  have hperm := sorter.perm descending pool
  generalize sorter.sort descending pool = sorted at hperm ⊢
  have hsum : sumOf getSelectionAmount sorted
      = sumOf getSelectionAmount pool := sumOf_perm hperm
  have hfirst : 0 < sorted.length := by
    apply lt_length_of_sumOf_drop_pos (f := getSelectionAmount)
    rw [drop_zero]
    omega
  rw [elementAt_eq (getElem?_eq_getElem hfirst)]
  refine Ensures.bind (r := BnbTask.search _ totalTries 0 _) (BnbTask.search_spec totalTries
    ⟨Nat.zero_le _, stacked_nil, rfl, rfl, rfl, hsum.symm⟩ fun hne => absurd rfl hne)
    fun s hbest => ?_
  exact BnbTask.result_spec hperm hdis hflag htarget hbest

end Quarlcoin.Wallet
