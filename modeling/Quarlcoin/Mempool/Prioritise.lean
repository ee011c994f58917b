import Mathlib.Algebra.Group.Int.Defs
import Mathlib.Data.List.Induction
import Mathlib.Logic.Function.Basic
import Quarlcoin.Arith.Model
/-!
# Prioritised transactions

`PrioritiseTransaction` of `txmempool.cpp` adds a delta to what `mapDeltas` has for a
transaction, and to the modified fee of its entry. Both sums saturate, each from its own
start, and they agree as long as neither does. The graph has the modified fee always.
-/

namespace Quarlcoin.Mempool

open Arith Function List

/-- The values of `CAmount`. -/
def IsAmount (x : ℤ) : Prop := -2 ^ 63 ≤ x ∧ x < 2 ^ 63

instance : DecidablePred IsAmount := fun _ => inferInstanceAs (Decidable (_ ∧ _))

def saturatingAdd (i j : ℤ) : ℤ :=
  if 0 < i ∧ 2 ^ 63 - 1 - i < j then 2 ^ 63 - 1
  else if i < 0 ∧ j < -2 ^ 63 - i then -2 ^ 63
  else i + j

theorem saturatingAdd_eq {i j : ℤ} (h : IsAmount (i + j)) : saturatingAdd i j = i + j := by
  obtain ⟨hlow, hhigh⟩ := h
  rw [saturatingAdd, if_neg (by omega), if_neg (by omega)]

/-- The fees of an entry, and the fee that the graph has for it. -/
structure FeeEntry where
  fee : ℤ
  modifiedFee : ℤ
  graphFee : ℤ

/-- What `mapDeltas` and `mapTx` have for a transaction. -/
structure FeeSlot where
  mapDelta : Option ℤ := none
  entry : Option FeeEntry := none

/-- What happens to a transaction; a removal for a block or a conflict with one calls
`ClearPrioritisation`. -/
inductive FeeEvent where
  | prioritise (nFeeDelta : ℤ)
  | accept (fee : ℤ)
  | remove (clear : Bool)

namespace FeeSlot

variable (slot : FeeSlot)

/-- `ApplyDelta`, to zero. -/
def delta : ℤ := slot.mapDelta.getD 0

def prioritiseTransaction (nFeeDelta : ℤ) : FeeSlot :=
  let delta := saturatingAdd slot.delta nFeeDelta
  { mapDelta := if delta = 0 then none else some delta
    entry := slot.entry.map fun entry =>
      let modifiedFee := saturatingAdd entry.modifiedFee nFeeDelta
      ⟨entry.fee, modifiedFee, modifiedFee⟩ }

/-- `StageAddition`, of a change that is applied. -/
def stageAddition (fee : ℤ) : FeeSlot :=
  let modifiedFee := if slot.delta ≠ 0 then saturatingAdd fee slot.delta else fee
  { slot with entry := some ⟨fee, modifiedFee, modifiedFee⟩ }

def step : FeeEvent → FeeSlot
  | .prioritise nFeeDelta => slot.prioritiseTransaction nFeeDelta
  | .accept fee => slot.stageAddition fee
  | .remove clear => { mapDelta := if clear then none else slot.mapDelta }

/-- No sum of the event saturates. -/
def Exact : FeeEvent → Prop
  | .prioritise nFeeDelta => IsAmount (slot.delta + nFeeDelta) ∧
      ∀ e ∈ slot.entry, IsAmount (e.modifiedFee + nFeeDelta)
  | .accept fee => IsAmount (fee + slot.delta)
  | .remove _ => True

instance (event : FeeEvent) : Decidable (slot.Exact event) := by
  cases event <;> unfold Exact <;> infer_instance

/-- **The graph has the modified fee** of an entry. -/
def Graphed : Prop := ∀ e ∈ slot.entry, e.graphFee = e.modifiedFee

/-- **The books of an entry**: its modified fee is its fee with the delta. -/
def Booked : Prop := ∀ e ∈ slot.entry, e.modifiedFee = e.fee + slot.delta ∧ IsAmount e.modifiedFee

variable {slot}

/-- Every event sets the two fees together, saturated or not. -/
theorem Graphed.step (event : FeeEvent) : (slot.step event).Graphed := by
  intro e he
  cases event with
  | prioritise d =>
    obtain ⟨old, -, rfl⟩ := Option.map_eq_some_iff.1 he
    rfl
  | accept fee =>
    cases he
    rfl
  | remove clear => cases he

/-- **An event whose sums do not saturate keeps the books.** -/
theorem Booked.step {event : FeeEvent} (hbooked : slot.Booked) (hexact : slot.Exact event) :
    (slot.step event).Booked := by
  intro e he
  cases event with
  | prioritise d =>
    obtain ⟨hdelta, hentry⟩ := hexact
    obtain ⟨old, hold, rfl⟩ := Option.map_eq_some_iff.1 he
    have hnew : (slot.prioritiseTransaction d).delta = slot.delta + d := by
      rw [prioritiseTransaction, saturatingAdd_eq hdelta, FeeSlot.delta]
      -- a delta of zero is erased, and reads as zero
      split_ifs with h
      · exact h.symm
      · rfl
    rw [FeeSlot.step, hnew, saturatingAdd_eq (hentry _ hold), (hbooked _ hold).1]
    exact ⟨add_assoc _ _ _, (hbooked _ hold).1 ▸ hentry _ hold⟩
  | accept fee =>
    -- a delta of zero is not added, which is the same sum
    have hsum : (if slot.delta ≠ 0 then saturatingAdd fee slot.delta else fee) =
        fee + slot.delta := by
      rw [saturatingAdd_eq hexact, ite_not]
      split_ifs with h
      · rw [h, add_zero]
      · rfl
    cases he
    rw [hsum]
    exact ⟨rfl, hexact⟩
  | remove clear => cases he

end FeeSlot

open FeeSlot

/-- The fees of the pool after some events. -/
def feesAfter (events : List (Uint256 × FeeEvent)) : Uint256 → FeeSlot :=
  events.foldl (fun pool event => update pool event.1 ((pool event.1).step event.2)) fun _ => {}

def ExactRun (events : List (Uint256 × FeeEvent)) : Prop :=
  ∀ pre event, pre ++ [event] <+: events → (feesAfter pre event.1).Exact event.2

/-- A run is looked at event by event. -/
theorem exactRun_of_get {events : List (Uint256 × FeeEvent)} (h : ∀ n : Fin events.length,
      (feesAfter (events.take n) (events.get n).1).Exact (events.get n).2) : ExactRun events := by
  rintro pre event ⟨rest, rfl⟩
  simpa using h ⟨pre.length, by simp⟩

/-- **The graph has the modified fees along every run.** -/
theorem graphed_feesAfter (events : List (Uint256 × FeeEvent)) (hash : Uint256) :
    (feesAfter events hash).Graphed := by
  induction events using reverseRecOn generalizing hash with
  | nil => exact fun _ he => by cases he
  | append_singleton events event ih =>
    rw [feesAfter, foldl_append]
    exact forall_update_iff _ (fun _ => Graphed) |>.2
      ⟨Graphed.step event.2, fun h _ => ih h⟩ hash

/-- **The books are kept along a run** of which no sum saturates. -/
theorem booked_feesAfter {events : List (Uint256 × FeeEvent)} (hexact : ExactRun events)
    (hash : Uint256) : (feesAfter events hash).Booked := by
  induction events using reverseRecOn generalizing hash with
  | nil => exact fun _ he => by cases he
  | append_singleton events event ih =>
    have hbooked := ih fun pre event hpre => hexact pre event (hpre.trans (prefix_append _ _))
    rw [feesAfter, foldl_append]
    exact forall_update_iff _ (fun _ => Booked) |>.2
      ⟨(hbooked _).step (hexact events event prefix_rfl), fun h _ => hbooked h⟩ hash

/-- **Prioritised fees add up**: the graph has the modified fee in every run; as long as no sum
saturates, that is the fee with the recorded delta, and a delta is undone by its negative. -/
theorem prioritise_adds_up (events : List (Uint256 × FeeEvent)) (hash : Uint256) (e : FeeEntry)
    (he : (feesAfter events hash).entry = some e) : e.graphFee = e.modifiedFee ∧
      (ExactRun events → e.modifiedFee = e.fee + (feesAfter events hash).delta ∧
        ∀ d, IsAmount (e.modifiedFee + d) →
          (((feesAfter events hash).prioritiseTransaction d).prioritiseTransaction (-d)).entry =
            some e) := by
  have hgraph := graphed_feesAfter events hash e he
  refine ⟨hgraph, fun hexact => ?_⟩
  obtain ⟨hmod, hin⟩ := booked_feesAfter hexact hash e he
  refine ⟨hmod, fun d hd => ?_⟩
  have hback : e.modifiedFee + d + -d = e.modifiedFee := by omega
  simp only [prioritiseTransaction, he, Option.map_some, saturatingAdd_eq hd]
  rw [saturatingAdd_eq (hback.symm ▸ hin), hback]
  cases e with
  | mk fee modifiedFee graphFee => rw [show graphFee = modifiedFee from hgraph]

/-- A transaction that is prioritised before it is accepted, in the pool and after it has left,
and comes back. -/
def returningFees : List (Uint256 × FeeEvent) :=
  [(0, .prioritise 500), (0, .accept 1000), (0, .prioritise 200), (0, .remove false),
    (0, .prioritise (-300)), (0, .accept 1000)]

/-- Its fee is the one of all three deltas, and a further delta of 70 is undone. -/
theorem prioritise_adds_up_returning : ExactRun returningFees ∧
    (feesAfter returningFees 0).entry = some ⟨1000, 1400, 1400⟩ ∧
    (1400 : ℤ) = 1000 + (feesAfter returningFees 0).delta ∧
    (((feesAfter returningFees 0).prioritiseTransaction 70).prioritiseTransaction (-70)).entry =
      some ⟨1000, 1400, 1400⟩ := by
  have hexact : ExactRun returningFees := exactRun_of_get (by decide)
  have hentry : (feesAfter returningFees 0).entry = some ⟨1000, 1400, 1400⟩ := rfl
  obtain ⟨-, hbooks⟩ := prioritise_adds_up returningFees 0 _ hentry
  obtain ⟨hmod, hundo⟩ := hbooks hexact
  exact ⟨hexact, hentry, hmod, hundo 70 (by decide)⟩

/-- The greatest delta and its negative take a fee of one away, and nothing is recorded. -/
theorem prioritise_loses_fee : feesAfter [(0, .accept 1), (0, .prioritise (2 ^ 63 - 1)),
    (0, .prioritise (1 - 2 ^ 63))] 0 = ⟨none, some ⟨1, 0, 0⟩⟩ := rfl

end Quarlcoin.Mempool
