import Quarlcoin.Wallet.BranchAndBound
/-!
# Coin grinder

`CoinGrinder` looks for the lightest selection that pays for the target and a change. It
adds the next group, shifts to leaving out the last one, or cuts and leaves out the last
two, and passes over groups of the amount of one just left out. The selection is a stack
here.
-/

namespace Quarlcoin.Wallet

open Picking List OutputGroup Ensures

/-! ## The model -/

/-- For each group the amount of those after it and the least weight among them, and both for the
pool. -/
structure Tails where
  lookahead : List ℤ
  minTailWeight : List ℤ
  totalAvailable : ℤ
  minGroupWeight : ℤ

/-- The loop over the pool in reverse order. -/
def tails : List OutputGroup → Except Fault Tails
  | [] => .ok ⟨[], [], 0, 2 ^ 31 - 1⟩
  | utxo :: pool => do
    let after ← tails pool
    ensure (utxo.getSelectionAmount > 0)
    return {
      lookahead := after.totalAvailable :: after.lookahead
      minTailWeight := after.minGroupWeight :: after.minTailWeight
      totalAvailable := after.totalAvailable + utxo.getSelectionAmount
      minGroupWeight := min after.minGroupWeight utxo.weight }

structure GrinderState where
  currSelection : List ℕ := []
  bestSelection : List ℕ := []
  currAmount : ℤ := 0
  bestSelectionAmount : ℤ := maxMoney.toInt
  currWeight : ℤ := 0
  bestSelectionWeight : ℤ
  maxTxWeightExceeded : Bool := false
  nextUtxo : ℕ := 0
  currTry : ℕ := 0
  algoCompleted : Bool := true

structure GrinderTask where
  pool : List OutputGroup
  lookahead : List ℤ
  minTailWeight : List ℤ
  totalTarget : ℤ
  maxWeight : ℤ

/-- Where to go from a selection. -/
inductive Move where
  | explore | shift | cut
  deriving DecidableEq, Repr

namespace GrinderTask

variable (t : GrinderTask) (utxo : OutputGroup)

/-- Shifts, or cuts if the last selected group is of the least weight. -/
def shiftOrCut (tail : ℕ) : Except Fault Move := do
  let lightest ← elementAt t.minTailWeight tail
  return if utxo.weight ≤ lightest then .cut else .shift

variable (s : GrinderState)

/-- Notes a selection that is lighter than the best one, or as light with less funds tied up. -/
def noteSolution : GrinderState :=
  if s.currWeight < s.bestSelectionWeight ∨
      (s.currWeight = s.bestSelectionWeight ∧ s.currAmount < s.bestSelectionAmount) then
    { s with
      bestSelection := s.currSelection
      bestSelectionWeight := s.currWeight
      bestSelectionAmount := s.currAmount }
  else s

/-- Whether the selection cannot get lighter than the best one and reach the target. -/
def hopeless (tail : ℕ) (s : GrinderState) : Except Fault Bool :=
  if s.bestSelection = [] then .ok false
  else do
    let lightest ← elementAt t.minTailWeight tail
    if utxo.getSelectionAmount = 0 then .error .divisionByZero
    else
      let missing := (t.totalTarget - s.currAmount + utxo.getSelectionAmount - 1).tdiv
        utxo.getSelectionAmount
      return s.currWeight + lightest * missing > s.bestSelectionWeight

/-- The evaluation of the current selection, whose last group is at `tail`. -/
def evaluate (tail : ℕ) (s : GrinderState) : Except Fault (GrinderState × Move) := do
  let ahead ← elementAt t.lookahead tail
  if s.currAmount + ahead < t.totalTarget then return (s, .cut)
  else if s.currWeight > s.bestSelectionWeight then
    let exceeded := s.maxTxWeightExceeded || decide (s.currWeight > t.maxWeight)
    return ({ s with maxTxWeightExceeded := exceeded }, ← t.shiftOrCut utxo tail)
  else if s.currAmount ≥ t.totalTarget then return (noteSolution s, .shift)
  else if ← t.hopeless utxo tail s then return (s, ← t.shiftOrCut utxo tail)
  else return (s, .explore)

/-- One visit: the next group is selected and the selection evaluated. -/
def visit : Except Fault (GrinderState × Move) := do
  let utxo ← elementAt t.pool s.nextUtxo
  t.evaluate utxo s.nextUtxo { s with
    currAmount := s.currAmount + utxo.getSelectionAmount
    currWeight := s.currWeight + utxo.weight
    currSelection := s.nextUtxo :: s.currSelection
    nextUtxo := s.nextUtxo + 1
    currTry := s.currTry + 1 }

/-- `deselect_last`, for the selection with `last` on top of `rest`. -/
def deselect (last : ℕ) (rest : List ℕ) (s : GrinderState) : Except Fault GrinderState := do
  let utxo ← elementAt t.pool last
  return { s with
    currAmount := s.currAmount - utxo.getSelectionAmount
    currWeight := s.currWeight - utxo.weight
    currSelection := rest }

/-- The loop that passes over groups of the amount of the one before: where it ends, and whether
that is the end of the pool. -/
def skipClones (previous : OutputGroup) : List OutputGroup → ℕ → Except Fault (ℕ × Bool)
  | [], _ => .error .outOfRange
  | utxo :: rest, next =>
    if previous.getSelectionAmount = utxo.getSelectionAmount then
      if rest = [] then .ok (next, true) else skipClones utxo rest (next + 1)
    else .ok (next, false)

/-- The loop that shifts, over the current selection. It ends the walk when that
is exhausted. -/
def shift : List ℕ → GrinderState → Except Fault (GrinderState × Bool)
  | [], s => .ok ({ s with algoCompleted := true }, true)
  | last :: rest, s => do
    let s ← t.deselect last rest s
    let previous ← elementAt t.pool last
    let (next, again) ← skipClones previous (t.pool.drop (last + 1)) (last + 1)
    if again then shift rest { s with nextUtxo := next }
    else return ({ s with nextUtxo := next }, false)

/-- Goes from an evaluated selection to the next one to visit, or ends the walk. -/
def follow (move : Move) : Except Fault (GrinderState × Bool) :=
  if s.nextUtxo = t.pool.length ∨ move = .cut then
    match s.currSelection with
    | [] => .error .outOfRange
    | last :: rest => do t.shift rest (← t.deselect last rest s)
  else if move = .shift then t.shift s.currSelection s
  else .ok (s, false)

/-- The walk, by the tries that are left after the next visit. -/
def walk : ℕ → GrinderState → Except Fault GrinderState
  | 0, s => do
    let (s, _) ← t.visit s
    return { s with algoCompleted := false }
  | left + 1, s => do
    let (s, move) ← t.visit s
    let (s, isDone) ← t.follow s move
    if isDone then return s else walk left s

def result (target : ℤ) (s : GrinderState) : Selected :=
  if s.bestSelection = [] then noSolution s.maxTxWeightExceeded
  else do
    let result ← SelectionResult.addInputsAt t.pool
      { target := target
        algo := .cg
        algoCompleted := s.algoCompleted
        selectionsEvaluated := some s.currTry }
      s.bestSelection.reverse
    return .ok result

end GrinderTask

def coinGrinder (sorter : Sorter) (utxoPool : List OutputGroup)
    (selectionTarget changeTarget maxSelectionWeight : ℤ) : Selected := do
  let pool := sorter.sort descendingEffvalWeight utxoPool
  let after ← tails pool
  let totalTarget := selectionTarget + changeTarget
  if after.totalAvailable < totalTarget then return .error ""
  else
    let task : GrinderTask := {
      pool := pool
      lookahead := after.lookahead
      minTailWeight := after.minTailWeight
      totalTarget := totalTarget
      maxWeight := maxSelectionWeight }
    let s ← task.walk (totalTries - 1) { bestSelectionWeight := maxSelectionWeight }
    task.result selectionTarget s

/-! ## What the walk tracks -/

variable {pool : List OutputGroup} {rest : List ℕ} {target : ℤ}

theorem tails_spec (hpos : ∀ g ∈ pool, 0 < g.getSelectionAmount) :
    Ensures (tails pool) (fun _ => False) fun after =>
      after.lookahead.length = pool.length ∧ after.minTailWeight.length = pool.length ∧
        after.totalAvailable = sumOf getSelectionAmount pool := by
  induction pool with
  | nil => exact ⟨rfl, rfl, rfl⟩
  | cons g pool ih =>
    refine (ih fun g' hg' => hpos g' (mem_cons_of_mem _ hg')).bind fun after hafter => ?_
    obtain ⟨hlook, hmin, htotal⟩ := hafter
    rw [ensure_eq (hpos g mem_cons_self)]
    refine ⟨?_, ?_, ?_⟩
    · rw [length_cons, length_cons, hlook]
    · rw [length_cons, length_cons, hmin]
    · rw [sumOf_cons, htotal, add_comm]

namespace GrinderTask

variable {t : GrinderTask} {s : GrinderState} {n : ℕ}

/-- The tables fit the pool, and its amounts are positive. -/
structure Fits (t : GrinderTask) : Prop where
  lookahead : t.lookahead.length = t.pool.length
  minTailWeight : t.minTailWeight.length = t.pool.length
  positive : ∀ g ∈ t.pool, 0 < g.getSelectionAmount

/-- The tracked sums are those of the selection. -/
structure Tracks (t : GrinderTask) (s : GrinderState) : Prop where
  amount : s.currAmount = sumOf getSelectionAmount (picked t.pool s.currSelection)
  weight : s.currWeight = sumOf weight (picked t.pool s.currSelection)

/-- A selection that the walk is for. -/
structure Solution (t : GrinderTask) (sel : List ℕ) : Prop where
  nodup : sel.Nodup
  inside : ∀ j ∈ sel, j < t.pool.length
  weight_le : sumOf weight (picked t.pool sel) ≤ t.maxWeight
  least : t.totalTarget ≤ sumOf getSelectionAmount (picked t.pool sel)

/-- The best selection so far is a solution, and none above the maximum weight counts as lighter.
-/
structure Best (t : GrinderTask) (s : GrinderState) : Prop where
  solution : s.bestSelection ≠ [] → t.Solution s.bestSelection
  weight_le : s.bestSelectionWeight ≤ t.maxWeight

/-- The walk is at a selection that it can visit the next group from. -/
structure Ready (t : GrinderTask) (s : GrinderState) : Prop where
  tracks : t.Tracks s
  stacked : Stacked s.nextUtxo s.currSelection
  next_lt : s.nextUtxo < t.pool.length

/-! ## A visit -/

theorem Best.noteSolution (hbest : t.Best s) (h : t.Tracks s) (hstack : Stacked n s.currSelection)
    (hn : n ≤ t.pool.length) (hweight : s.currWeight ≤ s.bestSelectionWeight)
    (hreached : t.totalTarget ≤ s.currAmount) : t.Best (noteSolution s) := by
  rw [GrinderTask.noteSolution]
  split_ifs
  · refine ⟨fun _ => ⟨hstack.nodup, fun j hj => (hstack.lt hj).trans_le hn, ?_, ?_⟩, ?_⟩
    · exact h.weight ▸ hweight.trans hbest.weight_le
    · exact h.amount ▸ hreached
    · exact hweight.trans hbest.weight_le
  · exact hbest

variable {utxo : OutputGroup} {tail : ℕ} (hfits : t.Fits)
include hfits

theorem shiftOrCut_spec (htail : tail < t.pool.length) :
    Ensures (t.shiftOrCut utxo tail) (fun _ => False) fun _ => True := by
  have hlt : tail < t.minTailWeight.length := hfits.minTailWeight ▸ htail
  rw [shiftOrCut, elementAt_eq (getElem?_eq_getElem hlt)]
  trivial

variable (hget : t.pool[tail]? = some utxo)
include hget

theorem hopeless_spec : Ensures (t.hopeless utxo tail s) (fun _ => False) fun _ => True := by
  obtain ⟨htail, -⟩ := List.getElem?_eq_some_iff.mp hget
  have hlt : tail < t.minTailWeight.length := hfits.minTailWeight ▸ htail
  have hamount := hfits.positive utxo (mem_of_getElem? hget)
  rw [hopeless]
  split_ifs with hnone hzero
  · trivial
  · exact absurd hzero hamount.ne'
  · rw [elementAt_eq (getElem?_eq_getElem hlt)]
    trivial

/-- An evaluation leaves the selection as it is, and the best one a solution. -/
theorem evaluate_spec (h : t.Tracks s)
    (hbest : t.Best s) (hstack : Stacked n s.currSelection) (hn : n ≤ t.pool.length) :
    Ensures (t.evaluate utxo tail s) (fun _ => False) fun r =>
      t.Tracks r.1 ∧ t.Best r.1 ∧ r.1.currSelection = s.currSelection ∧
        r.1.nextUtxo = s.nextUtxo := by
  obtain ⟨htail, -⟩ := List.getElem?_eq_some_iff.mp hget
  have hlt : tail < t.lookahead.length := hfits.lookahead ▸ htail
  rw [evaluate, elementAt_eq (getElem?_eq_getElem hlt)]
  change Ensures (if s.currAmount + t.lookahead[tail] < t.totalTarget then _ else _) _ _
  split_ifs with hcut hheavy hreached
  · exact ⟨h, hbest, rfl, rfl⟩
  · refine (shiftOrCut_spec hfits htail).bind fun move _ => ?_
    exact ⟨⟨h.amount, h.weight⟩, ⟨hbest.solution, hbest.weight_le⟩, rfl, rfl⟩
  · refine ⟨?_, hbest.noteSolution h hstack hn (not_lt.mp hheavy) hreached, ?_, ?_⟩
    · rw [noteSolution]
      split_ifs
      · exact ⟨h.amount, h.weight⟩
      · exact h
    · rw [noteSolution]
      split_ifs <;> rfl
    · rw [noteSolution]
      split_ifs <;> rfl
  · refine (hopeless_spec hfits hget).bind fun stuck _ => ?_
    cases stuck with
    | true =>
      refine (shiftOrCut_spec hfits htail).bind fun move _ => ?_
      exact ⟨h, hbest, rfl, rfl⟩
    | false => exact ⟨h, hbest, rfl, rfl⟩

omit hget

/-- **A visit** selects the next group. -/
theorem visit_spec (h : t.Ready s) (hbest : t.Best s) :
    Ensures (t.visit s) (fun _ => False) fun r =>
      t.Tracks r.1 ∧ t.Best r.1 ∧ r.1.currSelection = s.nextUtxo :: s.currSelection ∧
        r.1.nextUtxo = s.nextUtxo + 1 := by
  have hget := getElem?_eq_getElem h.next_lt
  rw [visit, elementAt_eq hget]
  refine evaluate_spec hfits hget ⟨?_, ?_⟩ ⟨hbest.solution, hbest.weight_le⟩ h.stacked.push
    h.next_lt
  · simp only [sumOf_picked_cons hget, h.tracks.amount]
    omega
  · simp only [sumOf_picked_cons hget, h.tracks.weight]
    omega

omit hfits

/-! ## Shifting and cutting -/

theorem deselect_spec {last : ℕ} (h : t.Tracks s) (hbest : t.Best s)
    (hsel : s.currSelection = last :: rest) (hlast : last < t.pool.length) :
    Ensures (t.deselect last rest s) (fun _ => False) fun s' =>
      t.Tracks s' ∧ t.Best s' ∧ s'.currSelection = rest := by
  have hget := getElem?_eq_getElem hlast
  have hamount := h.amount
  have hweight := h.weight
  rw [hsel, sumOf_picked_cons hget] at hamount hweight
  rw [deselect, elementAt_eq hget]
  refine ⟨⟨?_, ?_⟩, ⟨hbest.solution, hbest.weight_le⟩, rfl⟩
  · simp only
    omega
  · simp only
    omega

theorem skipClones_spec {previous : OutputGroup} {next : ℕ} (hnext : next < pool.length) :
    Ensures (skipClones previous (pool.drop next) next) (fun _ => False) fun r =>
      next ≤ r.1 ∧ r.1 < pool.length := by
  generalize hrest : pool.drop next = groups
  induction groups generalizing previous next with
  | nil =>
    have := drop_eq_nil_iff.mp hrest
    omega
  | cons utxo rest ih =>
    have hdrop := (Indexed.getElem?_of_drop hrest).2
    rw [skipClones]
    split_ifs with hclone hend
    · exact ⟨le_rfl, hnext⟩
    · have hnext' : next + 1 < pool.length := by
        by_contra hge
        exact hend (hdrop ▸ drop_eq_nil_of_le (by omega))
      exact (ih hnext' hdrop).imp fun r hr => ⟨by omega, hr.2⟩
    · exact ⟨le_rfl, hnext⟩

/-- **Shifting** ends the walk or leaves it ready for the next visit: by induction
over the selection, all of which is before the end of the pool. -/
theorem shift_spec {sel : List ℕ} (hsel : s.currSelection = sel) (h : t.Tracks s)
    (hbest : t.Best s) (hstack : Stacked n sel) (hn : n < t.pool.length) :
    Ensures (t.shift sel s) (fun _ => False) fun r => t.Best r.1 ∧ (r.2 = false → t.Ready r.1) := by
  induction sel generalizing s n with
  | nil => exact ⟨⟨hbest.solution, hbest.weight_le⟩, fun hdone => absurd hdone (by simp)⟩
  | cons last rest ih =>
    have hlast : last < n := hstack.lt mem_cons_self
    refine (deselect_spec h hbest hsel (hlast.trans hn)).bind fun s' hs' => ?_
    obtain ⟨htracks, hbest', hsel'⟩ := hs'
    rw [elementAt_eq (getElem?_eq_getElem (hlast.trans hn))]
    refine bind (r := skipClones _ _ _) (skipClones_spec (by omega)) fun r hr => ?_
    obtain ⟨next, again⟩ := r
    cases again with
    | true =>
      exact ih hsel' ⟨htracks.amount, htracks.weight⟩ ⟨hbest'.solution, hbest'.weight_le⟩
        hstack.pop (hlast.trans hn)
    | false =>
      refine ⟨⟨hbest'.solution, hbest'.weight_le⟩, fun _ =>
        ⟨⟨htracks.amount, htracks.weight⟩, ?_, hr.2⟩⟩
      have hle : last ≤ next := Nat.le_of_succ_le hr.1
      rw [hsel']
      exact hstack.pop.mono hle

/-- **From a visit to the next.** -/
theorem follow_spec (move : Move) (h : t.Tracks s) (hbest : t.Best s)
    (hsel : s.currSelection = tail :: rest) (hnext : s.nextUtxo = tail + 1)
    (hstack : Stacked tail rest) (htail : tail < t.pool.length) :
    Ensures (t.follow s move) (fun _ => False) fun r =>
      t.Best r.1 ∧ (r.2 = false → t.Ready r.1) := by
  rw [follow]
  split_ifs with hcut hshift
  · rw [hsel]
    refine (deselect_spec h hbest hsel htail).bind fun s' hs' => ?_
    exact shift_spec hs'.2.2 hs'.1 hs'.2.1 hstack htail
  · rw [hsel]
    exact shift_spec hsel h hbest hstack.push (by omega)
  · have hlt : s.nextUtxo < t.pool.length := by omega
    refine ⟨hbest, fun _ => ⟨h, ?_, hlt⟩⟩
    rw [hsel, hnext]
    exact hstack.push

/-! ## The whole walk -/

/-- **The walk returns**, without a fault, and its best selection is a solution: by
induction over the tries that are left. -/
theorem walk_spec (hfits : t.Fits) (left : ℕ) (h : t.Ready s) (hbest : t.Best s) :
    Ensures (t.walk left s) (fun _ => False) t.Best := by
  induction left generalizing s with
  | zero =>
    exact (visit_spec hfits h hbest).bind fun r hr => ⟨hr.2.1.solution, hr.2.1.weight_le⟩
  | succ left ih =>
    refine (visit_spec hfits h hbest).bind fun r hr => ?_
    obtain ⟨htracks, hbest', hsel, hnext⟩ := hr
    refine (follow_spec r.2 htracks hbest' hsel hnext h.stacked h.next_lt).bind fun r' hr' => ?_
    obtain ⟨s', isDone⟩ := r'
    cases isDone with
    | true => exact hr'.1
    | false => exact ih (hr'.2 rfl) hr'.1

theorem result_spec (hperm : t.pool.Perm pool) (hdis : DisjointGroups pool) (hbest : t.Best s) :
    Sound pool t.maxWeight (fun amount => t.totalTarget ≤ amount) (t.result target s) := by
  rw [result]
  split_ifs with hempty
  · exact sound_noSolution
  obtain ⟨hnodup, hinside, hweight, hleast⟩ := hbest.solution hempty
  obtain ⟨chosen, hadd, hselects, -⟩ := selects_addInputsAt
    (r := { target := target
            algo := .cg
            algoCompleted := s.algoCompleted
            selectionsEvaluated := some s.currTry }) rfl rfl hperm hdis hnodup hinside hweight
    hleast
  rw [hadd]
  exact ⟨chosen, hselects⟩

end GrinderTask

/-- **Coin grinder is sound**: the walk returns, no access leaves the pool, and a result is a
union of groups within the weight whose amount pays for the target and a change. -/
theorem coinGrinder_spec (sorter : Sorter) {changeTarget : ℤ}
    (maxWeight : ℤ) (hdis : DisjointGroups pool)
    (hpos : ∀ g ∈ pool, 0 < g.getSelectionAmount) (hne : pool ≠ [] ∨ 0 < target + changeTarget) :
    Sound pool maxWeight (fun amount => target + changeTarget ≤ amount)
      (coinGrinder sorter pool target changeTarget maxWeight) := by
  rw [coinGrinder]
  have hperm := sorter.perm descendingEffvalWeight pool
  generalize sorter.sort descendingEffvalWeight pool = sorted at hperm ⊢
  have hpos' : ∀ g ∈ sorted, 0 < g.getSelectionAmount := fun g hg => hpos g (hperm.subset hg)
  refine bind (tails_spec hpos') fun after hafter => ?_
  obtain ⟨hlook, hmin, htotal⟩ := hafter
  change Sound _ _ _ (if after.totalAvailable < target + changeTarget then _ else _)
  split_ifs with hfunds
  · trivial
  have hfirst : 0 < sorted.length := by
    rcases hne with hne | htarget
    · rw [hperm.length_eq]
      exact length_pos_of_ne_nil hne
    · apply lt_length_of_sumOf_drop_pos (f := getSelectionAmount)
      rw [drop_zero]
      omega
  refine bind (GrinderTask.walk_spec ⟨hlook, hmin, hpos'⟩ _
    ⟨⟨rfl, rfl⟩, stacked_nil, hfirst⟩ ⟨fun hne => absurd rfl hne, le_rfl⟩) fun s hbest => ?_
  exact GrinderTask.result_spec hperm hdis hbest

end Quarlcoin.Wallet
