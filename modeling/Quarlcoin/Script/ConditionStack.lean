import Mathlib.Algebra.Group.Nat.Defs
import Mathlib.Data.List.Basic
import Mathlib.Tactic.SplitIfs
/-!
# The stack of conditions

`ConditionStack` of `script/interpreter.cpp` stands for a vector of booleans. It keeps the
size of the vector and the place of the first `false`, each in 32 bits, so it simulates
every vector below `2 ^ 32`.
-/

namespace Quarlcoin.Script

open List

def noFalse : ℕ := 2 ^ 32 - 1

structure ConditionStack where
  stackSize : ℕ := 0
  firstFalsePos : ℕ := noFalse

namespace ConditionStack

variable (s : ConditionStack)

def empty : Bool := s.stackSize == 0

def allTrue : Bool := s.firstFalsePos == noFalse

def pushBack (f : Bool) : ConditionStack where
  stackSize := (s.stackSize + 1) % 2 ^ 32
  firstFalsePos := if s.firstFalsePos = noFalse ∧ f = false then s.stackSize else s.firstFalsePos

/-- `pop_back`; `none` where its assertion fails. -/
def popBack : Option ConditionStack :=
  if 0 < s.stackSize then
    let stackSize := s.stackSize - 1
    some ⟨stackSize, if s.firstFalsePos = stackSize then noFalse else s.firstFalsePos⟩
  else none

/-- `toggle_top`; `none` where its assertion fails. -/
def toggleTop : Option ConditionStack :=
  if 0 < s.stackSize then
    if s.firstFalsePos = noFalse then some { s with firstFalsePos := s.stackSize - 1 }
    else if s.firstFalsePos = s.stackSize - 1 then some { s with firstFalsePos := noFalse }
    else some s
  else none

end ConditionStack

/-- A call that changes the stack. -/
inductive StackCall where
  | pushBack (f : Bool)
  | popBack
  | toggleTop

namespace StackCall

def run (s : ConditionStack) : StackCall → Option ConditionStack
  | pushBack f => some (s.pushBack f)
  | popBack => s.popBack
  | toggleTop => s.toggleTop

/-- What it does to a vector of at most `maxSize` elements; `none` where that is not allowed. -/
def spec (maxSize : ℕ) : List Bool → StackCall → Option (List Bool)
  | v, pushBack f => if v.length < maxSize then some (f :: v) else none
  | _ :: v, popBack => some v
  | f :: v, toggleTop => some ((!f) :: v)
  | [], _ => none

end StackCall

/-- The place of the first `false` of a vector, or `NO_FALSE`. -/
def firstFalse : List Bool → ℕ
  | [] => noFalse
  | f :: v => if firstFalse v = noFalse ∧ f = false then v.length else firstFalse v

open ConditionStack

variable {v w : List Bool}

theorem firstFalse_cases (v : List Bool) : firstFalse v < v.length ∨ firstFalse v = noFalse := by
  induction v with
  | nil => exact .inr rfl
  | cons f v ih =>
    rw [firstFalse, length_cons]
    split_ifs <;> omega

theorem firstFalse_eq_iff (hv : v.length ≤ noFalse) : firstFalse v = noFalse ↔ false ∉ v := by
  induction v with
  | nil => simp [firstFalse]
  | cons f v ih =>
    rw [length_cons] at hv
    rw [firstFalse, mem_cons, not_or, ← ih (by omega)]
    cases f <;> grind

/-- **A call does to the stack what it does to the vector.** The first `false` is behind
the top, at it or below it. -/
theorem run_eq {c : StackCall} (hv : v.length ≤ noFalse) (hc : c.spec noFalse v = some w) :
    c.run ⟨v.length, firstFalse v⟩ = some ⟨w.length, firstFalse w⟩ ∧ w.length ≤ noFalse := by
  have hbig : noFalse < 2 ^ 32 := by decide
  cases c with
  | pushBack f =>
    rw [StackCall.spec] at hc
    split at hc
    · obtain rfl := Option.some.inj hc
      refine ⟨?_, by rwa [length_cons]⟩
      rw [StackCall.run, pushBack, Nat.mod_eq_of_lt (show v.length + 1 < 2 ^ 32 by omega)]
      rfl
    · cases hc
  | popBack =>
    cases v with
    | nil => cases hc
    | cons f v =>
      obtain rfl := Option.some.inj hc
      have hcases := firstFalse_cases v
      rw [length_cons] at hv
      refine ⟨?_, by omega⟩
      -- the top was the first `false` exactly if that is at the new size
      simp only [StackCall.run, popBack, length_cons, firstFalse]
      grind
  | toggleTop =>
    cases v with
    | nil => cases hc
    | cons f v =>
      obtain rfl := Option.some.inj hc
      have hcases := firstFalse_cases v
      refine ⟨?_, hv⟩
      rw [length_cons] at hv
      simp only [StackCall.run, toggleTop, length_cons, firstFalse]
      cases f <;> grind

theorem foldlM_run_eq {calls : List StackCall} (hv : v.length ≤ noFalse)
    (hrun : calls.foldlM (StackCall.spec noFalse) v = some w) :
    calls.foldlM StackCall.run ⟨v.length, firstFalse v⟩ = some ⟨w.length, firstFalse w⟩ ∧
      w.length ≤ noFalse := by
  induction calls generalizing v with
  | nil =>
    obtain rfl := Option.some.inj hrun
    exact ⟨rfl, hv⟩
  | cons c calls ih =>
    rw [foldlM_cons, Option.bind_eq_bind, Option.bind_eq_some_iff] at hrun
    obtain ⟨u, hc, hrest⟩ := hrun
    obtain ⟨hstep, hu⟩ := run_eq hv hc
    rw [foldlM_cons, hstep]
    exact ih hu hrest

/-- **The stack simulates a vector of booleans** of less than `2 ^ 32` elements: no assertion
fails, and both questions have the vector's answers. -/
theorem conditionStack_simulates (calls : List StackCall) (v : List Bool)
    (hrun : calls.foldlM (StackCall.spec (2 ^ 32 - 1)) [] = some v) :
    ∃ s, calls.foldlM StackCall.run {} = some s ∧ (s.empty = true ↔ v = []) ∧
      (s.allTrue = true ↔ false ∉ v) := by
  obtain ⟨hs, hv⟩ := foldlM_run_eq (by decide) hrun
  refine ⟨_, hs, ?_, ?_⟩
  · rw [empty, beq_iff_eq, length_eq_zero_iff]
  · rw [allTrue, beq_iff_eq, firstFalse_eq_iff hv]

/-- A branch that is not taken, and one inside the other. -/
theorem conditionStack_simulates_nested :
    ∃ s, [.pushBack false, .toggleTop, .pushBack false].foldlM StackCall.run {} = some s ∧
      (s.empty = true ↔ [false, true] = []) ∧ (s.allTrue = true ↔ false ∉ [false, true]) :=
  conditionStack_simulates _ _ rfl

theorem foldlM_pushes (n k : ℕ) (v : List Bool) :
    (replicate n (.pushBack true)).foldlM StackCall.run ⟨k % 2 ^ 32, noFalse⟩ =
        some ⟨(k + n) % 2 ^ 32, noFalse⟩ ∧
      (replicate n (.pushBack true)).foldlM (StackCall.spec (v.length + n)) v =
        some (replicate n true ++ v) := by
  induction n generalizing k v with
  | zero => exact ⟨rfl, rfl⟩
  | succ n ih =>
    obtain ⟨hrun, hspec⟩ := ih (k + 1) (true :: v)
    rw [length_cons, Nat.add_right_comm] at hspec
    rw [Nat.add_right_comm] at hrun
    rw [replicate_succ, foldlM_cons, foldlM_cons, StackCall.spec, if_pos (by omega),
      replicate_succ', append_assoc, StackCall.run, pushBack, Nat.mod_add_mod]
    exact ⟨hrun, hspec⟩

/-- **A vector that the size has no room for.** With `2 ^ 32` elements the stack says that
it is empty. -/
theorem conditionStack_wraps :
    ∃ s v, (replicate (2 ^ 32) (.pushBack true)).foldlM StackCall.run {} = some s ∧
      (replicate (2 ^ 32) (.pushBack true)).foldlM (StackCall.spec (2 ^ 32)) [] = some v ∧
      s.empty = true ∧ v ≠ [] := by
  obtain ⟨hrun, hspec⟩ := foldlM_pushes (2 ^ 32) 0 []
  rw [length_nil, Nat.zero_add] at hspec
  refine ⟨_, _, hrun, hspec, by decide, fun h => ?_⟩
  have hlen := congrArg length h
  rw [length_append, length_replicate] at hlen
  exact absurd hlen (by decide)

end Quarlcoin.Script
