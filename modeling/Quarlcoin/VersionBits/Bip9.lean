import Quarlcoin.VersionBits.Model
/-!
# Version bits — the recursion of BIP 9

The first period is `DEFINED`, and the state of a period follows from the state of the one
before it and that period's blocks. It changes only at the start of a period and only
forward (`Bip9.state_step`).
-/

namespace Quarlcoin.VersionBits

open ThresholdState Links Nat

/-- The first index of the maximal run of equal values that ends at `h`. -/
def runStart {β : Type} [DecidableEq β] (f : ℕ → β) : ℕ → ℕ
  | 0 => 0
  | h + 1 => if f h = f (h + 1) then runStart f h else h + 1

/-- `r` is where the maximal run of equal values up to `h` starts. -/
structure IsRunStart {β : Type} (f : ℕ → β) (h r : ℕ) : Prop where
  le : r ≤ h
  constant : ∀ k, r ≤ k → k ≤ h → f k = f h
  maximal : 0 < r → f (r - 1) ≠ f h

section

variable {β : Type} {f : ℕ → β} {h r : ℕ}

theorem isRunStart_runStart [DecidableEq β] (f : ℕ → β) (h : ℕ) :
    IsRunStart f h (runStart f h) := by
  induction h with
  | zero =>
    exact ⟨le_rfl, fun k _ hk => by rw [le_zero.1 hk], fun hr => absurd hr (by simp [runStart])⟩
  | succ h ih =>
    rw [runStart]
    split
    · rename_i heq
      refine ⟨ih.le.trans (le_succ h), fun k hrk hk => ?_, fun hr => heq ▸ ih.maximal hr⟩
      rcases le_succ_iff.1 hk with hk | rfl
      · exact (ih.constant k hrk hk).trans heq
      · rfl
    · rename_i hne
      exact ⟨le_rfl, fun k hrk hk => by rw [le_antisymm hk hrk], fun _ => hne⟩

theorem IsRunStart.unique {r' : ℕ} (hr : IsRunStart f h r) (hr' : IsRunStart f h r') : r = r' := by
  rcases lt_trichotomy r r' with hlt | heq | hlt
  · exact absurd (hr.constant (r' - 1) (by omega) (by have := hr'.le; omega))
      (hr'.maximal (by omega))
  · exact heq
  · exact absurd (hr'.constant (r - 1) (by omega) (by have := hr.le; omega))
      (hr.maximal (by omega))

end

/-- The transitions a deployment may make. -/
inductive Advances : ThresholdState → ThresholdState → Prop where
  | start : Advances defined started
  | lockIn : Advances started lockedIn
  | fail : Advances started failed
  | activate : Advances lockedIn active

theorem not_advances_defined (s : ThresholdState) : ¬ Advances s defined := by rintro ⟨⟩

namespace Bip9

variable {ι : Type} (t : BlockTree ι) (c : ConditionChecker ι)

/-- How many of the last `period` blocks up to `i` meet the condition. -/
def signalCount (i : ι) : ℕ :=
  (List.range c.period).countP fun n => (t.back n (some i)).any c.condition

/-- The state of the period after the one that ends with `i`. -/
def advance (state : ThresholdState) (i : ι) : ThresholdState :=
  match state with
  | defined => if c.beginTime ≤ t.getMedianTimePast i then started else defined
  | started =>
    if c.threshold ≤ signalCount t c i then lockedIn
    else if c.endTime ≤ t.getMedianTimePast i then failed
    else started
  | lockedIn => if c.minActivationHeight ≤ t.nHeight i + 1 then active else lockedIn
  | active => active
  | failed => failed

/-- The state of period number `k` on a chain whose block before that period
is `x`. -/
def periodState : ℕ → Option ι → ThresholdState
  | 0, _ => defined
  | _ + 1, none => defined
  | k + 1, some i => advance t c (periodState k (t.back c.period (some i))) i

variable (x : Option ι)

/-- **The state of the block after `x`**: of its period, unless the deployment is always or never
active. -/
def state : ThresholdState :=
  if c.beginTime = alwaysActive then active
  else if c.beginTime = neverActive then failed
  else
    periodState t c (t.nextHeight x / c.period) (t.back (t.nextHeight x % c.period) x)

/-- The state of the block at a height of the chain of `x`, the block after `x` included. -/
def stateAt (height : ℕ) : ThresholdState :=
  state t c (t.back (t.nextHeight x - height) x)

/-- The first height of the run of blocks that share the state of the block
after `x`. -/
def since : ℕ := runStart (stateAt t c x) (t.nextHeight x)

def answer : ConditionChecker.Query ι → ConditionChecker.Answer
  | .state x => .state (state t c x)
  | .since x => .since (since t c x)

/-! ## Periods -/

variable {t c}

/-- The parent of a first block of a period. -/
def Boundary (t : BlockTree ι) (c : ConditionChecker ι) (x : Option ι) : Prop :=
  c.period ∣ t.nextHeight x

/-- The state of the period after a boundary. -/
def boundaryState (t : BlockTree ι) (c : ConditionChecker ι) (x : Option ι) : ThresholdState :=
  periodState t c (t.nextHeight x / c.period) x

theorem boundary_none : Boundary t c none := Dvd.intro_left 0 (zero_mul _)

theorem boundary_back_mod (x : Option ι) : Boundary t c (t.back (t.nextHeight x % c.period) x) := by
  rw [Boundary, t.nextHeight_back]
  exact dvd_sub_mod _

variable {i : ι} {x : Option ι}

theorem Boundary.le (h : Boundary t c (some i)) : c.period ≤ t.nHeight i + 1 :=
  le_of_dvd (succ_pos _) h

theorem Boundary.back (h : Boundary t c x) : Boundary t c (t.back c.period x) := by
  rw [Boundary, t.nextHeight_back]
  exact dvd_sub h (dvd_refl _)

@[simp] theorem boundaryState_none : boundaryState t c none = defined := by
  rw [boundaryState, nextHeight_none, Nat.zero_div]
  rfl

/-- **One period of the recursion.** -/
theorem Boundary.boundaryState_some (h : Boundary t c (some i)) :
    boundaryState t c (some i) = advance t c (boundaryState t c (t.back c.period (some i))) i := by
  have hle := h.le
  have hk : t.nextHeight (some i) / c.period =
      t.nextHeight (t.back c.period (some i)) / c.period + 1 := by
    rw [t.nextHeight_back, nextHeight_some, div_eq_sub_div c.period_pos hle]
  rw [boundaryState, hk, periodState, boundaryState]

theorem state_eq (hstart : c.beginTime ≠ alwaysActive ∧ c.beginTime ≠ neverActive) (x : Option ι) :
    state t c x = boundaryState t c (t.back (t.nextHeight x % c.period) x) := by
  rw [state, if_neg hstart.1, if_neg hstart.2, boundaryState, t.nextHeight_back]
  rw [← div_eq_sub_mod_div]

/-! ## States only advance -/

theorem advance_eq_or_advances (s : ThresholdState) (i : ι) :
    advance t c s i = s ∨ Advances s (advance t c s i) := by
  cases s with
  | defined =>
    rw [advance]
    split
    · exact .inr .start
    · exact .inl rfl
  | started =>
    rw [advance]
    split
    · exact .inr .lockIn
    · split
      · exact .inr .fail
      · exact .inl rfl
  | lockedIn =>
    rw [advance]
    split
    · exact .inr .activate
    · exact .inl rfl
  | active => exact .inl rfl
  | failed => exact .inl rfl

theorem succ_mod_period (c : ConditionChecker ι) (h : ℕ) :
    ((h + 1) % c.period = 0 ∧ h % c.period = c.period - 1) ∨
      (h + 1) % c.period = h % c.period + 1 := by
  have hlt := mod_lt h c.period_pos
  rw [← mod_add_mod]
  rcases lt_or_ge (h % c.period + 1) c.period with hmid | hlast
  · exact .inr (mod_eq_of_lt hmid)
  · have heq : h % c.period + 1 = c.period := by omega
    exact .inl ⟨by rw [heq, mod_self], by omega⟩

/-- A block inside a period has the state of the block before it; the first
block of a period has the next state. -/
theorem state_some (hstart : c.beginTime ≠ alwaysActive ∧ c.beginTime ≠ neverActive) (i : ι) :
    state t c (some i) = state t c (t.pprev i) ∨
      state t c (some i) = advance t c (state t c (t.pprev i)) i := by
  have hprev : t.nextHeight (t.pprev i) = t.nHeight i := t.nextHeight_bind_pprev (some i)
  rw [state_eq hstart, state_eq hstart, hprev, nextHeight_some]
  rcases succ_mod_period c (t.nHeight i) with ⟨hmod, hlast⟩ | hnext
  · right
    have hbound : Boundary t c (some i) := dvd_of_mod_eq_zero hmod
    have hback : t.back c.period (some i) = t.back (c.period - 1) (t.pprev i) := by
      rw [← back_succ_some, Nat.sub_add_cancel c.period_pos]
    rw [hmod, back_zero, hbound.boundaryState_some, hlast, hback]
  · left
    rw [hnext, back_succ_some]

/-- **A chain's states only advance**, one transition at a time. -/
theorem state_step (i : ι) : state t c (some i) = state t c (t.pprev i) ∨
      Advances (state t c (t.pprev i)) (state t c (some i)) := by
  by_cases halways : c.beginTime = alwaysActive
  · left
    rw [state, if_pos halways, state, if_pos halways]
  by_cases hnever : c.beginTime = neverActive
  · left
    rw [state, if_neg halways, if_pos hnever, state, if_neg halways, if_pos hnever]
  rcases state_some ⟨halways, hnever⟩ i with h | h
  · exact .inl h
  · rw [h]
    exact advance_eq_or_advances _ _

theorem state_back_eq_defined (h : state t c x = defined) (n : ℕ) :
    state t c (t.back n x) = defined := by
  induction n generalizing x with
  | zero => exact h
  | succ n ih =>
    cases x with
    | none => rwa [back_none]
    | some i =>
      refine ih ((state_step i).elim (fun hsame => hsame.symm.trans h) fun hadv => ?_)
      exact absurd (h ▸ hadv) (not_advances_defined _)

/-- **The shortcut of the walk back**: before the start time the state is the first one. -/
theorem boundaryState_eq_defined (htimes : t.TimesAboveMedian) (hbound : Boundary t c (some i))
    (hearly : t.getMedianTimePast i < c.beginTime) : boundaryState t c (some i) = defined := by
  induction hn : t.nHeight i using Nat.strong_induction_on generalizing i with
  | _ n ih =>
  have hprev : boundaryState t c (t.back c.period (some i)) = defined := by
    cases hb : t.back c.period (some i) with
    | none => exact boundaryState_none
    | some j =>
      have hheight := t.nextHeight_back c.period (some i)
      rw [hb, nextHeight_some, nextHeight_some] at hheight
      have hpos := c.period_pos
      have hmedian := ((htimes.aboveMedianFrom 0).of_back hb (zero_le _)).1
      exact ih (t.nHeight j) (by omega) (hb ▸ hbound.back) (by omega) rfl
  rw [hbound.boundaryState_some, hprev, advance, if_neg (by omega)]

/-! ## The states of a chain by height -/

theorem stateAt_of_period (hstart : c.beginTime ≠ alwaysActive ∧ c.beginTime ≠ neverActive)
    {n k : ℕ} (hbound : Boundary t c (t.back n x)) (hn : n ≤ t.nextHeight x)
    (hge : t.nextHeight x - n ≤ k) (hlt : k < t.nextHeight x - n + c.period)
    (hk : k ≤ t.nextHeight x) : stateAt t c x k = boundaryState t c (t.back n x) := by
  rw [Boundary, t.nextHeight_back] at hbound
  have hmod : k % c.period = k - (t.nextHeight x - n) := by
    obtain ⟨q, hq⟩ := hbound
    rw [show k = c.period * q + (k - (t.nextHeight x - n)) by omega, mul_add_mod,
      mod_eq_of_lt (by omega)]
    omega
  have hheight : t.nextHeight (t.back (t.nextHeight x - k) x) = k := by
    rw [t.nextHeight_back]
    omega
  rw [stateAt, state_eq hstart, hheight, ← back_add]
  congr 2
  omega

theorem stateAt_nextHeight (x : Option ι) : stateAt t c x (t.nextHeight x) = state t c x := by
  rw [stateAt, Nat.sub_self, back_zero]

/-- The run of blocks in a state that no block left starts at the genesis
block. -/
theorem since_eq_zero (h : ∀ n, state t c (t.back n x) = state t c x) : since t c x = 0 := by
  refine (isRunStart_runStart _ _).unique ⟨zero_le _, fun k _ _ => ?_, fun h0 => ?_⟩
  · rw [stateAt_nextHeight, stateAt, h]
  · exact absurd h0 (lt_irrefl 0)

end Bip9

end Quarlcoin.VersionBits
