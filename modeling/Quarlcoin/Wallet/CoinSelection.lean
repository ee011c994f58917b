import Mathlib.Data.List.Flatten
import Quarlcoin.Common.Indexed
import Quarlcoin.Common.Outcome
import Quarlcoin.Common.Picking
import Quarlcoin.Consensus.TxCheck
import Quarlcoin.Node.MiniMiner
/-!
# Output groups and selection results

The types of `wallet/coinselection.h`. A group is made by `OutputGroup::Insert`, which keeps
the group's amounts the sums of its coins'. Amounts and weights are integers here. What is
only read when groups are filtered is left out.
-/

namespace Quarlcoin.Wallet

open Picking List

/-- What ends a selection other than its return: a failing `assert` or `Assume`, an access beyond
a vector, an index decremented at zero, a division by zero, and groups that share a coin. -/
inductive Fault where
  | assertion
  | outOfRange
  | wraps
  | divisionByZero
  | sharedUtxos
  deriving DecidableEq, Repr

/-- `assert`, and `Assume` as it is in a debug build. -/
def ensure (p : Prop) [Decidable p] : Except Fault Unit :=
  if p then .ok () else .error .assertion

theorem ensure_eq {p : Prop} [Decidable p] (h : p) : ensure p = .ok () := if_pos h

def elementAt {α : Type} (v : List α) (i : ℕ) : Except Fault α :=
  match v[i]? with
  | some a => .ok a
  | none => .error .outOfRange

theorem elementAt_eq {α : Type} {v : List α} {i : ℕ} {a : α} (h : v[i]? = some a) :
    elementAt v i = .ok a := by
  rw [elementAt, h]

def decrement : ℕ → Except Fault ℕ
  | 0 => .error .wraps
  | i + 1 => .ok i

/-- `std::accumulate` of a quantity that may not be there. -/
def accumulate {α : Type} (f : α → Except Fault ℤ) : ℤ → List α → Except Fault ℤ
  | sum, [] => .ok sum
  | sum, a :: l => do accumulate f (sum + (← f a)) l

theorem accumulate_eq {α : Type} {f : α → Except Fault ℤ} {g : α → ℤ} {l : List α}
    (h : ∀ a ∈ l, f a = .ok (g a)) (sum : ℤ) : accumulate f sum l = .ok (sum + sumOf g l) := by
  induction l generalizing sum with
  | nil => simp [accumulate]
  | cons a l ih =>
    rw [accumulate, h a mem_cons_self, sumOf_cons, ← add_assoc]
    exact ih (fun b hb => h b (mem_cons_of_mem _ hb)) _

/-! ## Coins -/

/-- `COutput`, as far as the selection reads it. Its effective value is present with its fee. -/
structure COutput where
  outpoint : OutPoint
  nValue : ℤ
  inputBytes : ℤ
  fee : Option ℤ
  longTermFee : ℤ := 0
  deriving DecidableEq

namespace COutput

variable (o : COutput)

def getFee : Except Fault ℤ :=
  match o.fee with
  | some fee => .ok fee
  | none => .error .assertion

def getEffectiveValue : Except Fault ℤ :=
  match o.fee with
  | some fee => .ok (o.nValue - fee)
  | none => .error .assertion

def feePaid : ℤ := o.fee.getD 0

def effective : ℤ := o.nValue - o.feePaid

def inputWeight : ℤ :=
  if 0 < o.inputBytes then o.inputBytes * witnessScaleFactor else 0

variable {o : COutput}

theorem getFee_eq (h : o.fee.isSome) : o.getFee = .ok o.feePaid := by
  obtain ⟨fee, hfee⟩ := Option.isSome_iff_exists.mp h
  rw [getFee, feePaid, hfee]
  rfl

theorem getEffectiveValue_eq (h : o.fee.isSome) : o.getEffectiveValue = .ok o.effective := by
  obtain ⟨fee, hfee⟩ := Option.isSome_iff_exists.mp h
  rw [getEffectiveValue, effective, feePaid, hfee]
  rfl

end COutput

/-! ## Groups -/

/-- `OutputGroup`: coins that are selected together, with the sums over them. -/
structure OutputGroup where
  outputs : List COutput
  value : ℤ
  effectiveValue : ℤ
  fee : ℤ
  longTermFee : ℤ
  longTermFeerate : FeeFrac
  subtractFeeOutputs : Bool
  weight : ℤ
  priced : ∀ o ∈ outputs, o.fee.isSome
  value_eq : value = sumOf COutput.nValue outputs
  effectiveValue_eq : effectiveValue = sumOf COutput.effective outputs
  fee_eq : fee = sumOf COutput.feePaid outputs
  longTermFee_eq : longTermFee = sumOf COutput.longTermFee outputs
  weight_eq : weight = sumOf COutput.inputWeight outputs

namespace OutputGroup

/-- The constructor from `CoinSelectionParams`. -/
def new (longTermFeerate : FeeFrac) (subtractFeeOutputs : Bool) : OutputGroup where
  outputs := []
  value := 0
  effectiveValue := 0
  fee := 0
  longTermFee := 0
  longTermFeerate := longTermFeerate
  subtractFeeOutputs := subtractFeeOutputs
  weight := 0
  priced := by simp
  value_eq := rfl
  effectiveValue_eq := rfl
  fee_eq := rfl
  longTermFee_eq := rfl
  weight_eq := rfl

variable (g : OutputGroup)

def insert (output : COutput) : Except Fault OutputGroup :=
  if hfee : output.fee.isSome then
    let coin := { output with
      longTermFee :=
        if output.inputBytes < 0 then 0 else getFee g.longTermFeerate output.inputBytes }
    .ok {
      outputs := g.outputs ++ [coin]
      value := g.value + coin.nValue
      effectiveValue := g.effectiveValue + coin.effective
      fee := g.fee + coin.feePaid
      longTermFee := g.longTermFee + coin.longTermFee
      longTermFeerate := g.longTermFeerate
      subtractFeeOutputs := g.subtractFeeOutputs
      weight := g.weight + coin.inputWeight
      priced := by
        intro o ho
        rcases List.mem_append.mp ho with ho | ho
        · exact g.priced o ho
        · obtain rfl := List.mem_singleton.mp ho
          exact hfee
      value_eq := by simp [g.value_eq]
      effectiveValue_eq := by simp [g.effectiveValue_eq]
      fee_eq := by simp [g.fee_eq]
      longTermFee_eq := by simp [g.longTermFee_eq]
      weight_eq := by simp [g.weight_eq] }
  else .error .assertion

def getSelectionAmount : ℤ :=
  if g.subtractFeeOutputs then g.value else g.effectiveValue

/-- What it costs to spend a group now instead of later. -/
def wasteOf : ℤ := g.fee - g.longTermFee

theorem getSelectionAmount_of_outputs {g : OutputGroup} (h : g.outputs = []) :
    g.getSelectionAmount = 0 := by
  rw [getSelectionAmount, g.value_eq, g.effectiveValue_eq, h, sumOf_nil, sumOf_nil, ite_self]

theorem flatMap_outputs_ne_nil {groups : List OutputGroup}
    (h : 0 < sumOf getSelectionAmount groups) : groups.flatMap outputs ≠ [] := by
  intro hnil
  have hzero : sumOf getSelectionAmount groups = 0 := by
    apply sum_eq_zero
    intro x hx
    obtain ⟨g, hg, rfl⟩ := mem_map.mp hx
    exact getSelectionAmount_of_outputs (flatMap_eq_nil_iff.mp hnil g hg)
  omega

end OutputGroup

variable (a b : OutputGroup)

/-- `descending`: by selection amount, the lower waste first. -/
def descending : Bool :=
  if a.getSelectionAmount = b.getSelectionAmount then
    a.fee - a.longTermFee < b.fee - b.longTermFee
  else b.getSelectionAmount < a.getSelectionAmount

/-- `descending_effval_weight`: by selection amount, the lower weight first. -/
def descendingEffvalWeight : Bool :=
  if a.getSelectionAmount = b.getSelectionAmount then a.weight < b.weight
  else b.getSelectionAmount < a.getSelectionAmount

/-- `std::sort`. Which order it leaves equal elements in is not said; nothing is lost or invented.
-/
structure Sorter where
  sort : (OutputGroup → OutputGroup → Bool) → List OutputGroup → List OutputGroup
  perm : ∀ lt groups, (sort lt groups).Perm groups

/-- `FastRandomContext`: how it shuffles, and the bits it then gives. -/
structure RandomContext where
  shuffle : {α : Type} → List α → List α
  randbool : ℕ → Bool
  perm : ∀ {α : Type} (l : List α), (shuffle l).Perm l

/-! ## Results -/

inductive SelectionAlgorithm where
  | bnb | knapsack | srd | cg | manual
  deriving DecidableEq, Repr

structure SelectionResult where
  selectedInputs : List COutput := []
  target : ℤ
  algo : SelectionAlgorithm
  useEffective : Bool := false
  waste : Option ℤ := none
  algoCompleted : Bool := true
  selectionsEvaluated : Option ℕ := none
  weight : ℤ := 0
  bumpFeeGroupDiscount : ℤ := 0
  deriving DecidableEq

def errorMaxWeightExceeded : String :=
  "The inputs size exceeds the maximum weight. Please try sending a smaller amount or " ++
    "manually consolidating your wallet's UTXOs"

/-- `util::Result<SelectionResult>`, unless there is a fault. -/
abbrev Selected := Except Fault (Except String SelectionResult)

def noSolution (maxWeightExceeded : Bool) : Selected :=
  .ok (.error (if maxWeightExceeded then errorMaxWeightExceeded else ""))

namespace SelectionResult

/-- `std::set::insert` in the order of outpoints. -/
def insertOutput (selected : List COutput) (o : COutput) : List COutput :=
  if o.outpoint ∈ selected.map COutput.outpoint then selected else selected ++ [o]

variable (r : SelectionResult)

def insertInputs (inputs : List COutput) : Except Fault SelectionResult :=
  let expectedCount := r.selectedInputs.length + inputs.length
  let selected := inputs.foldl insertOutput r.selectedInputs
  if selected.length ≠ expectedCount then .error .sharedUtxos
  else .ok { r with selectedInputs := selected }

def addInput (group : OutputGroup) : Except Fault SelectionResult := do
  let r ← r.insertInputs group.outputs
  return { r with
    useEffective := !group.subtractFeeOutputs
    weight := r.weight + group.weight }

def clear : SelectionResult :=
  { r with selectedInputs := [], waste := none, weight := 0 }

def getSelectedValue : ℤ := sumOf COutput.nValue r.selectedInputs

def getSelectedEffectiveValue : Except Fault ℤ := do
  return (← accumulate COutput.getEffectiveValue 0 r.selectedInputs) + r.bumpFeeGroupDiscount

/-- `m_use_effective ? GetSelectedEffectiveValue() : GetSelectedValue()`. -/
def selectedAmount : Except Fault ℤ :=
  if r.useEffective then r.getSelectedEffectiveValue else .ok r.getSelectedValue

def getChange (minViableChange changeFee : ℤ) : Except Fault ℤ := do
  let amount ← r.selectedAmount
  let change := if r.useEffective then amount - r.target - changeFee else amount - r.target
  return if change < minViableChange then 0 else change

def recalculateWaste (minViableChange changeCost changeFee : ℤ) : Except Fault SelectionResult := do
  ensure (r.selectedInputs ≠ [])
  let costs ← accumulate (fun coin => do return (← coin.getFee) - coin.longTermFee) 0
    r.selectedInputs
  let waste := costs - r.bumpFeeGroupDiscount
  if (← r.getChange minViableChange changeFee) ≠ 0 then
    return { r with waste := some (waste + changeCost) }
  else do
    let selectedEffectiveValue ← r.selectedAmount
    ensure (r.target ≤ selectedEffectiveValue)
    return { r with waste := some (waste + (selectedEffectiveValue - r.target)) }

def getWaste : Except Fault ℤ :=
  match r.waste with
  | some waste => .ok waste
  | none => .error .assertion

/-- The loop that adds the groups at some positions of a pool. -/
def addInputsAt (pool : List OutputGroup) (r : SelectionResult) (sel : List ℕ) :
    Except Fault SelectionResult :=
  sel.foldlM (fun r i => do r.addInput (← elementAt pool i)) r

/-! ## What a result holds -/

variable {r : SelectionResult} {groups : List OutputGroup} {inputs selected : List COutput}

theorem foldl_insertOutput (h : ((selected ++ inputs).map COutput.outpoint).Nodup) :
    inputs.foldl insertOutput selected = selected ++ inputs := by
  induction inputs generalizing selected with
  | nil => simp
  | cons o inputs ih =>
    have hnotin : o.outpoint ∉ selected.map COutput.outpoint := by
      intro hmem
      rw [map_append, nodup_append] at h
      exact h.2.2 _ hmem _ mem_cons_self rfl
    rw [foldl_cons, insertOutput, if_neg hnotin, ih (by simpa using h)]
    simp

/-- Whether effective values count after some groups were added. -/
def usesEffective (r : SelectionResult) (groups : List OutputGroup) : Bool :=
  groups.foldl (fun _ g => !g.subtractFeeOutputs) r.useEffective

/-- A result with the coins and the weights of some groups. -/
def joined (r : SelectionResult) (groups : List OutputGroup) : SelectionResult :=
  { r with
    selectedInputs := r.selectedInputs ++ groups.flatMap OutputGroup.outputs
    useEffective := r.usesEffective groups
    weight := r.weight + sumOf OutputGroup.weight groups }

/-- **Adding groups** that share no coin adds their coins and their weights. -/
theorem foldlM_addInput
    (h : ((r.selectedInputs ++ groups.flatMap OutputGroup.outputs).map COutput.outpoint).Nodup) :
    groups.foldlM addInput r = .ok (r.joined groups) := by
  induction groups generalizing r with
  | nil => simp [joined, usesEffective, pure, Except.pure]
  | cons g groups ih =>
    rw [flatMap_cons, ← append_assoc] at h
    have hg : ((r.selectedInputs ++ g.outputs).map COutput.outpoint).Nodup := by
      rw [map_append] at h
      exact h.of_append_left
    have hadd : r.addInput g = .ok { r with
        selectedInputs := r.selectedInputs ++ g.outputs
        useEffective := !g.subtractFeeOutputs
        weight := r.weight + g.weight } := by
      rw [addInput, insertInputs, foldl_insertOutput hg]
      simp
    rw [foldlM_cons, hadd]
    change groups.foldlM addInput _ = _
    rw [ih h]
    simp only [joined, append_assoc, add_assoc]
    rfl

theorem addInputsAt_eq {pool : List OutputGroup} {sel : List ℕ} (h : ∀ i ∈ sel, i < pool.length) :
    addInputsAt pool r sel = (picked pool sel).foldlM addInput r := by
  induction sel generalizing r with
  | nil => rfl
  | cons i sel ih =>
    have hlt : i < pool.length := h i mem_cons_self
    have hi : pool[i]? = some pool[i] := getElem?_eq_getElem hlt
    rw [picked_cons hi, addInputsAt, foldlM_cons, elementAt_eq hi]
    exact bind_congr fun r' => ih fun j hj => h j (mem_cons_of_mem _ hj)

section Waste

variable {subtract : Bool} (hflag : ∀ g ∈ groups, g.subtractFeeOutputs = subtract)
  (hin : r.selectedInputs = groups.flatMap OutputGroup.outputs)
  (huse : r.useEffective = !subtract) (hdiscount : r.bumpFeeGroupDiscount = 0)

theorem usesEffective_eq (hflag : ∀ g ∈ groups, g.subtractFeeOutputs = subtract)
    (hne : groups ≠ []) : r.usesEffective groups = !subtract := by
  obtain ⟨init, g, rfl⟩ := (eq_nil_or_concat' groups).resolve_left hne
  simp [usesEffective, hflag g (by simp)]

include hin in
theorem priced_of_groups : ∀ o ∈ r.selectedInputs, o.fee.isSome := by
  intro o ho
  rw [hin] at ho
  obtain ⟨g, -, hog⟩ := mem_flatMap.mp ho
  exact g.priced o hog

include hflag hin huse hdiscount in
/-- The amount that a change is taken from is the groups' selection amount. -/
theorem selectedAmount_eq :
    r.selectedAmount = .ok (sumOf OutputGroup.getSelectionAmount groups) := by
  cases hs : subtract with
  | true =>
    rw [selectedAmount, huse, hs, getSelectedValue, hin]
    have hamount : ∀ g ∈ groups, g.getSelectionAmount = sumOf COutput.nValue g.outputs := by
      intro g hg
      rw [OutputGroup.getSelectionAmount, hflag g hg, hs, if_pos rfl, g.value_eq]
    rw [sumOf_flatMap hamount]
    rfl
  | false =>
    rw [selectedAmount, huse, hs, getSelectedEffectiveValue, accumulate_eq
        (fun o ho => o.getEffectiveValue_eq (priced_of_groups hin o ho)), hin, hdiscount]
    have hamount : ∀ g ∈ groups, g.getSelectionAmount = sumOf COutput.effective g.outputs := by
      intro g hg
      rw [OutputGroup.getSelectionAmount, hflag g hg, hs, if_neg (by simp), g.effectiveValue_eq]
    rw [sumOf_flatMap hamount]
    simp [ok_bind, pure, Except.pure]

include hflag hin huse hdiscount in
theorem getChange_eq (minViableChange : ℤ) : r.getChange minViableChange 0
      = .ok (if sumOf OutputGroup.getSelectionAmount groups - r.target < minViableChange then 0
          else sumOf OutputGroup.getSelectionAmount groups - r.target) := by
  rw [getChange, selectedAmount_eq hflag hin huse hdiscount]
  cases r.useEffective with
  | true =>
    rw [← sub_zero (_ - r.target)]
    rfl
  | false => rfl

include hflag hin huse hdiscount in
/-- **The waste of a selection without change** is the cost of spending the coins now and the
excess. -/
theorem recalculateWaste_eq {cost : ℤ} (hne : r.selectedInputs ≠ [])
    (hlow : r.target ≤ sumOf OutputGroup.getSelectionAmount groups)
    (hhigh : sumOf OutputGroup.getSelectionAmount groups ≤ r.target + cost) :
    r.recalculateWaste cost cost 0 = .ok { r with waste := some (sumOf OutputGroup.wasteOf groups
        + (sumOf OutputGroup.getSelectionAmount groups - r.target)) } := by
  have hcosts : accumulate (fun coin => do return (← coin.getFee) - coin.longTermFee) 0
      r.selectedInputs = .ok (sumOf OutputGroup.wasteOf groups) := by
    have hcoin : ∀ o ∈ r.selectedInputs,
        (do return (← o.getFee) - o.longTermFee : Except Fault ℤ)
          = .ok (o.feePaid - o.longTermFee) := by
      intro o ho
      rw [o.getFee_eq (priced_of_groups hin o ho)]
      rfl
    have hgroup : ∀ g ∈ groups, g.wasteOf
        = sumOf (fun o => o.feePaid - o.longTermFee) g.outputs := by
      intro g _
      rw [OutputGroup.wasteOf, g.fee_eq, g.longTermFee_eq, sumOf_sub]
    rw [accumulate_eq hcoin, hin, sumOf_flatMap hgroup, zero_add]
  rw [recalculateWaste, ensure_eq hne, hcosts, getChange_eq hflag hin huse hdiscount, hdiscount]
  by_cases hchange : (if sumOf OutputGroup.getSelectionAmount groups - r.target < cost then 0
      else sumOf OutputGroup.getSelectionAmount groups - r.target) = 0
  · rw [hchange, selectedAmount_eq hflag hin huse hdiscount]
    change (ensure (r.target ≤ _) >>= _) = _
    rw [ensure_eq hlow, sub_zero]
    rfl
  have hcost : sumOf OutputGroup.getSelectionAmount groups - r.target = cost := by
    by_contra hne'
    exact hchange (if_pos (by omega))
  rw [hcost, if_neg (lt_irrefl _)] at hchange
  rw [hcost, if_neg (lt_irrefl _)]
  change (if cost ≠ 0 then _ else _) = _
  rw [if_pos hchange, sub_zero]
  rfl

end Waste

end SelectionResult

/-! ## Sound selections -/

/-- No coin is in two groups, or twice in one. -/
def DisjointGroups (groups : List OutputGroup) : Prop :=
  ((groups.flatMap OutputGroup.outputs).map COutput.outpoint).Nodup

variable (pool : List OutputGroup) (maxWeight : ℤ)

/-- A result is the union of some groups of a pool: no coin twice, within the maximum weight, and
of the required amount. -/
structure Selects (Required : ℤ → Prop)
    (chosen : List OutputGroup) (r : SelectionResult) : Prop where
  part : chosen.Subperm pool
  union : r.selectedInputs = chosen.flatMap OutputGroup.outputs
  nodup : (r.selectedInputs.map COutput.outpoint).Nodup
  weight_eq : r.weight = sumOf COutput.inputWeight r.selectedInputs
  weight_le : r.weight ≤ maxWeight
  amount : Required (sumOf OutputGroup.getSelectionAmount chosen)

/-- **A selection is sound**: it returns an error or a union of groups as required. -/
def Sound (Required : ℤ → Prop) (s : Selected) : Prop :=
  Ensures s (fun _ => False) fun out =>
    Ensures out (fun _ => True) fun r => ∃ chosen, Selects pool maxWeight Required chosen r

variable {pool chosen : List OutputGroup} {maxWeight : ℤ} {R : ℤ → Prop}

theorem sound_noSolution {exceeded : Bool} : Sound pool maxWeight R (noSolution exceeded) := trivial

theorem DisjointGroups.of_subperm (h : DisjointGroups pool) (hsub : chosen.Subperm pool) :
    DisjointGroups chosen := by
  obtain ⟨l, hperm, hl⟩ := hsub
  have hnodup : DisjointGroups l := h.sublist ((hl.flatMap _).map _)
  exact ((hperm.flatMap_right _).map _).nodup_iff.mp hnodup

/-- **Some groups of the pool make a sound result**, started from an empty one. -/
theorem selects_joined {r : SelectionResult} (hr : r.selectedInputs = []) (hrw : r.weight = 0)
    (hdis : DisjointGroups pool) (hpart : chosen.Subperm pool)
    (hweight : sumOf OutputGroup.weight chosen ≤ maxWeight)
    (hamount : R (sumOf OutputGroup.getSelectionAmount chosen)) :
    chosen.foldlM SelectionResult.addInput r = .ok (r.joined chosen) ∧
      Selects pool maxWeight R chosen (r.joined chosen) := by
  have hnodup : DisjointGroups chosen := hdis.of_subperm hpart
  have hunion : (r.joined chosen).selectedInputs = chosen.flatMap OutputGroup.outputs := by
    rw [SelectionResult.joined, hr, nil_append]
  have hweights : (r.joined chosen).weight = sumOf OutputGroup.weight chosen := by
    rw [SelectionResult.joined, hrw, zero_add]
  refine ⟨SelectionResult.foldlM_addInput (by rwa [hr]), ⟨hpart, hunion, ?_, ?_,
    hweights ▸ hweight, hamount⟩⟩
  · rw [hunion]
    exact hnodup
  · rw [hunion, hweights]
    exact (sumOf_flatMap fun g _ => g.weight_eq).symm

/-- **Different positions of the sorted pool make a sound result**, added in the
order they were pushed. -/
theorem selects_addInputsAt {r : SelectionResult} {sorted : List OutputGroup} {sel : List ℕ}
    (hr : r.selectedInputs = []) (hrw : r.weight = 0) (hperm : sorted.Perm pool)
    (hdis : DisjointGroups pool) (hnodup : sel.Nodup) (hinside : ∀ j ∈ sel, j < sorted.length)
    (hweight : sumOf OutputGroup.weight (picked sorted sel) ≤ maxWeight)
    (hamount : R (sumOf OutputGroup.getSelectionAmount (picked sorted sel))) :
    ∃ chosen, SelectionResult.addInputsAt sorted r sel.reverse = .ok (r.joined chosen) ∧
      Selects pool maxWeight R chosen (r.joined chosen) ∧
      ∀ f : OutputGroup → ℤ, sumOf f chosen = sumOf f (picked sorted sel) := by
  have hsum (f : OutputGroup → ℤ) :
      sumOf f (picked sorted sel.reverse) = sumOf f (picked sorted sel) := by
    rw [picked, filterMap_reverse]
    exact sumOf_perm (reverse_perm _)
  have hinside' : ∀ j ∈ sel.reverse, j < sorted.length := fun j hj => hinside j (mem_reverse.mp hj)
  have hpart : (picked sorted sel.reverse).Subperm pool :=
    (picked_subperm (nodup_reverse.mpr hnodup) hinside').trans hperm.subperm
  rw [← hsum] at hweight hamount
  obtain ⟨hadd, hselects⟩ := selects_joined hr hrw hdis hpart hweight hamount
  rw [SelectionResult.addInputsAt_eq hinside']
  exact ⟨_, hadd, hselects, hsum⟩

end Quarlcoin.Wallet
