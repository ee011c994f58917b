import Mathlib.Data.Finmap
import Quarlcoin.Chain.Tree
/-!
# Version bits — the model

`AbstractThresholdConditionChecker` of `versionbits.cpp`. The walks over the block tree are
cut off after a number of rounds; running into the cut, a null pointer or an assertion is a
`Fault`.
-/

namespace Quarlcoin.VersionBits

inductive ThresholdState where
  | defined
  | started
  | lockedIn
  | active
  | failed
  deriving DecidableEq, Repr

def alwaysActive : ℤ := -1

def neverActive : ℤ := -2

/-- `AbstractThresholdConditionChecker`: the values its virtual functions
return. -/
structure ConditionChecker (ι : Type) where
  condition : ι → Bool
  beginTime : ℤ
  endTime : ℤ
  minActivationHeight : ℤ
  period : ℕ
  threshold : ℤ
  period_pos : 0 < period

/-- How a call can go wrong. -/
inductive Fault where
  | nullPointer
  | assertion
  | outOfFuel
  deriving DecidableEq

/-- `ThresholdConditionCache`: the state of a period, under the parent of its
first block. -/
abbrev ThresholdConditionCache (ι : Type) := Finmap fun _ : Option ι => ThresholdState

namespace ConditionChecker

variable {ι : Type} [DecidableEq ι] (t : BlockTree ι) (c : ConditionChecker ι)

/-- The parent of the first block of a period that `pindexPrev` is in. -/
def periodParent : Option ι → Option ι
  | none => none
  | some i => t.getAncestor i (t.nHeight i - ((t.nHeight i + 1) % c.period : ℕ))

/-- The loop that walks back to a period the cache knows. The last pushed entry of `vToCompute`
comes first. -/
def walkBack : ℕ → ThresholdConditionCache ι → Option ι → List ι →
    Except Fault (ThresholdConditionCache ι × Option ι × List ι)
  | 0, _, _, _ => .error .outOfFuel
  | fuel + 1, cache, pindexPrev, vToCompute =>
    if pindexPrev ∈ cache then .ok (cache, pindexPrev, vToCompute)
    else
      match pindexPrev with
      | none => .ok (cache.insert none .defined, none, vToCompute)
      | some i =>
        if t.getMedianTimePast i < c.beginTime then
          .ok (cache.insert (some i) .defined, some i, vToCompute)
        else walkBack fuel cache (t.getAncestor i (t.nHeight i - c.period)) (i :: vToCompute)

def countLoop : ℕ → Option ι → ℕ → Except Fault ℕ
  | 0, _, count => .ok count
  | _ + 1, none, _ => .error .nullPointer
  | n + 1, some i, count => countLoop n (t.pprev i) (if c.condition i then count + 1 else count)

/-- The `switch` on the state of a period whose last block is `i`. -/
def stateNext (state : ThresholdState) (i : ι) : Except Fault ThresholdState :=
  match state with
  | .defined =>
    if t.getMedianTimePast i ≥ c.beginTime then .ok .started else .ok .defined
  | .started =>
    (c.countLoop t c.period (some i) 0).map fun count =>
      if (count : ℤ) ≥ c.threshold then .lockedIn
      else if t.getMedianTimePast i ≥ c.endTime then .failed
      else .started
  | .lockedIn =>
    if (t.nHeight i : ℤ) + 1 ≥ c.minActivationHeight then .ok .active else .ok .lockedIn
  | .failed => .ok .failed
  | .active => .ok .active

def walkForward : List ι → ThresholdState → ThresholdConditionCache ι →
    Except Fault (ThresholdConditionCache ι × ThresholdState)
  | [], state, cache => .ok (cache, state)
  | i :: vToCompute, state, cache =>
    match c.stateNext t state i with
    | .error e => .error e
    | .ok next => walkForward vToCompute next (cache.insert (some i) next)

variable (cache : ThresholdConditionCache ι) (pindexPrev : Option ι)

def getStateFor : Except Fault (ThresholdConditionCache ι × ThresholdState) :=
  if c.beginTime = alwaysActive then .ok (cache, .active)
  else if c.beginTime = neverActive then .ok (cache, .failed)
  else
    match c.walkBack t (t.nextHeight pindexPrev + 1) cache (c.periodParent t pindexPrev) [] with
    | .error e => .error e
    | .ok (cache, pindexPrev, vToCompute) =>
      match cache.lookup pindexPrev with
      | none => .error .assertion
      | some state => c.walkForward t vToCompute state cache

/-- The loop of `GetStateSinceHeightFor`; `i` is `pindexPrev`. -/
def sinceLoop (initialState : ThresholdState) : ℕ → ThresholdConditionCache ι → ι →
    Except Fault (ThresholdConditionCache ι × ℕ)
  | 0, _, _ => .error .outOfFuel
  | fuel + 1, cache, i =>
    match t.getAncestor i (t.nHeight i - c.period) with
    | none => .ok (cache, t.nHeight i + 1)
    | some previousPeriodParent =>
      match c.getStateFor t cache (some previousPeriodParent) with
      | .error e => .error e
      | .ok (cache, state) =>
        if state = initialState then sinceLoop initialState fuel cache previousPeriodParent
        else .ok (cache, t.nHeight i + 1)

def getStateSinceHeightFor : Except Fault (ThresholdConditionCache ι × ℕ) :=
  if c.beginTime = alwaysActive ∨ c.beginTime = neverActive then .ok (cache, 0)
  else
    match c.getStateFor t cache pindexPrev with
    | .error e => .error e
    | .ok (cache, initialState) =>
      if initialState = .defined then .ok (cache, 0)
      else
        match pindexPrev with
        | none => .error .nullPointer
        | some i =>
          match c.periodParent t (some i) with
          | none => .error .assertion
          | some first => c.sinceLoop t initialState (t.nHeight i + 1) cache first

/-- A query of the cache's owner. -/
inductive Query (ι : Type) where
  | state (pindexPrev : Option ι)
  | since (pindexPrev : Option ι)

/-- What a query returns. -/
inductive Answer where
  | state (s : ThresholdState)
  | since (height : ℕ)
  deriving DecidableEq

def ask : Query ι → Except Fault (ThresholdConditionCache ι × Answer)
  | .state x => (c.getStateFor t cache x).map fun r => (r.1, .state r.2)
  | .since x => (c.getStateSinceHeightFor t cache x).map fun r => (r.1, .since r.2)

end ConditionChecker

end Quarlcoin.VersionBits
