import Quarlcoin.Common.Simulation
import Quarlcoin.VersionBits.Bip9
/-!
# Version bits — the cache does not show

`GetStateFor` and `GetStateSinceHeightFor` answer as the recursion of BIP 9 does, whatever
filled the cache before, since the cache tells the truth (`Truthful`). The walk back keeps a
path (`Path`), and the walk forward follows it.
-/

namespace Quarlcoin.VersionBits

open ThresholdState Bip9 Option Links List Nat Finmap

variable {ι : Type} [DecidableEq ι] {t : BlockTree ι} {c : ConditionChecker ι}

/-- Every entry of the cache is right. -/
def Truthful (t : BlockTree ι) (c : ConditionChecker ι) (cache : ThresholdConditionCache ι) :
    Prop :=
  ∀ x s, cache.lookup x = some s → Boundary t c x ∧ s = boundaryState t c x

theorem truthful_empty : Truthful t c ∅ := by
  intro x s h
  exact absurd h (by simp)

theorem Truthful.insert {cache : ThresholdConditionCache ι} (h : Truthful t c cache)
    {x : Option ι} (hx : Boundary t c x) : Truthful t c (cache.insert x (boundaryState t c x)) := by
  intro y s hy
  by_cases hyx : y = x
  · subst hyx
    rw [lookup_insert] at hy
    exact ⟨hx, (some.inj hy).symm⟩
  · rw [lookup_insert_of_ne _ hyx] at hy
    exact h y s hy

/-- The entries of `v` lead from `x` to `y`, a period each. -/
def Path (t : BlockTree ι) (c : ConditionChecker ι) : Option ι → List ι → Option ι → Prop
  | x, [], y => x = y
  | x, i :: v, y => Boundary t c (some i) ∧ t.back c.period (some i) = x ∧ Path t c (some i) v y

omit [DecidableEq ι] in
theorem path_nil (x : Option ι) : Path t c x [] x := rfl

namespace ConditionChecker

/-! ## The loops -/

omit [DecidableEq ι] in
theorem periodParent_eq_back (x : Option ι) :
    c.periodParent t x = t.back (t.nextHeight x % c.period) x := by
  cases x with
  | none => rw [periodParent, back_none]
  | some i => rw [periodParent, t.getAncestor_sub, nextHeight_some]

variable {n fuel : ℕ} {i : ι} {y : Option ι} {v : List ι}

omit [DecidableEq ι] in
theorem countLoop_eq {x : Option ι} (hn : n ≤ t.nextHeight x) (count : ℕ) :
    c.countLoop t n x count =
      .ok (count + (range n).countP fun k => (t.back k x).any c.condition) := by
  induction n generalizing x count with
  | zero => rfl
  | succ n ih =>
    cases x with
    | none => exact absurd hn (by simp)
    | some i =>
      have hn' : n ≤ t.nextHeight (t.pprev i) := by
        have := t.nextHeight_bind_pprev (some i)
        rw [bind_some] at this
        omega
      rw [countLoop, ih hn', range_succ_eq_map, countP_cons, countP_map]
      congr 1
      have htail : ((fun k => (t.back k (some i)).any c.condition) ∘ succ) =
          fun k => (t.back k (t.pprev i)).any c.condition := rfl
      rw [htail, back_zero, any_some]
      split <;> omega

omit [DecidableEq ι] in
theorem stateNext_eq (h : Boundary t c (some i)) (s : ThresholdState) :
    c.stateNext t s i = .ok (advance t c s i) := by
  cases s with
  | defined =>
    rw [stateNext, advance]
    split <;> rfl
  | started =>
    rw [stateNext, countLoop_eq h.le, zero_add]
    rfl
  | lockedIn =>
    rw [stateNext, advance]
    split <;> rfl
  | active => rfl
  | failed => rfl

variable {cache : ThresholdConditionCache ι} {x : Option ι}

/-- **The walk back** ends at a period the cache knows, with the path to
where it started. -/
theorem walkBack_spec (htimes : t.TimesAboveMedian)
    (hcache : Truthful t c cache) (hx : Boundary t c x) (hpath : Path t c x v y)
    (hfuel : t.nextHeight x < fuel) :
    ∃ cache' x' v', c.walkBack t fuel cache x v = .ok (cache', x', v') ∧ Truthful t c cache' ∧
      cache'.lookup x' = some (boundaryState t c x') ∧ Path t c x' v' y := by
  induction fuel generalizing x v with
  | zero => exact absurd hfuel (not_lt_zero _)
  | succ fuel ih =>
    unfold walkBack
    split
    · rename_i hmem
      obtain ⟨s, hs⟩ := mem_iff.1 hmem
      exact ⟨cache, x, v, rfl, hcache, by rw [hs, (hcache x s hs).2], hpath⟩
    cases x with
    | none =>
      refine ⟨_, none, v, rfl, ?_, ?_, hpath⟩
      · simpa using hcache.insert (boundary_none)
      · rw [lookup_insert, boundaryState_none]
    | some i =>
      dsimp only
      split
      · rename_i hearly
        have hdefined := boundaryState_eq_defined htimes hx hearly
        refine ⟨_, some i, v, rfl, ?_, ?_, hpath⟩
        · simpa only [hdefined] using hcache.insert hx
        · rw [lookup_insert, hdefined]
      · rw [t.getAncestor_sub]
        refine ih hx.back ⟨hx, rfl, hpath⟩ ?_
        have hpos := c.period_pos
        rw [nextHeight_some] at hfuel
        rw [t.nextHeight_back, nextHeight_some]
        omega

/-- **The walk forward** computes the state at the end of the path. -/
theorem walkForward_spec (hcache : Truthful t c cache) (hpath : Path t c x v y) :
    ∃ cache', c.walkForward t v (boundaryState t c x) cache = .ok (cache', boundaryState t c y) ∧
      Truthful t c cache' := by
  induction v generalizing x cache with
  | nil =>
    obtain rfl : x = y := hpath
    exact ⟨cache, rfl, hcache⟩
  | cons i v ih =>
    obtain ⟨hi, rfl, hrest⟩ := hpath
    rw [walkForward, stateNext_eq hi, ← hi.boundaryState_some]
    exact ih (hcache.insert hi) hrest

/-! ## The two queries -/

variable (htimes : t.TimesAboveMedian)
include htimes

/-- **`GetStateFor` answers as the recursion does.** -/
theorem getStateFor_spec (hcache : Truthful t c cache) (x : Option ι) :
    ∃ cache', c.getStateFor t cache x = .ok (cache', state t c x) ∧ Truthful t c cache' := by
  unfold getStateFor
  split
  · rename_i halways
    exact ⟨cache, by rw [state, if_pos halways], hcache⟩
  rename_i halways
  split
  · rename_i hnever
    exact ⟨cache, by rw [state, if_neg halways, if_pos hnever], hcache⟩
  rename_i hnever
  rw [periodParent_eq_back]
  have hfuel : t.nextHeight (t.back (t.nextHeight x % c.period) x) < t.nextHeight x + 1 := by
    rw [t.nextHeight_back]
    omega
  obtain ⟨cache', x', v, hback, hcache', hlookup, hpath⟩ :=
    walkBack_spec htimes hcache (boundary_back_mod x) (path_nil _) hfuel
  rw [hback]
  dsimp only
  rw [hlookup, state_eq ⟨halways, hnever⟩]
  exact walkForward_spec hcache' hpath

/-- The loop of `GetStateSinceHeightFor`: from a period whose blocks, and those
of all later ones, share a state, it goes down to where the run starts. -/
theorem sinceLoop_spec
    (hstart : c.beginTime ≠ alwaysActive ∧ c.beginTime ≠ neverActive) (hne : state t c x ≠ defined)
    (hcache : Truthful t c cache) (hi : t.back n x = some i) (hbound : Boundary t c (some i))
    (hrun : ∀ k, t.nHeight i + 1 ≤ k → k ≤ t.nextHeight x → stateAt t c x k = state t c x)
    (hfuel : t.nHeight i < fuel) :
    ∃ cache', c.sinceLoop t (state t c x) fuel cache i = .ok (cache', since t c x) ∧
      Truthful t c cache' := by
  induction fuel generalizing n cache i with
  | zero => exact absurd hfuel (not_lt_zero _)
  | succ fuel ih =>
    have hpos := c.period_pos
    have hheight : t.nHeight i + 1 = t.nextHeight x - n := by
      rw [← t.nextHeight_back, hi, nextHeight_some]
    have hn : n + c.period ≤ t.nextHeight x := by
      have := hbound.le
      omega
    have hbackprev : t.back (n + c.period) x = t.back c.period (some i) := by rw [back_add, hi]
    -- the state of the period before
    have hprev : ∀ k, t.nHeight i + 1 - c.period ≤ k → k ≤ t.nHeight i →
        stateAt t c x k = boundaryState t c (t.back c.period (some i)) := by
      intro k hk hki
      rw [← hbackprev]
      exact stateAt_of_period hstart (hbackprev ▸ hbound.back) hn (by omega) (by omega) (by omega)
    -- if it differs, the run starts here
    have hend : boundaryState t c (t.back c.period (some i)) ≠ state t c x →
        since t c x = t.nHeight i + 1 := by
      intro hdiff
      refine (isRunStart_runStart _ _).unique ⟨by omega, fun k hk hkx => ?_, fun _ => ?_⟩
      · rw [stateAt_nextHeight, hrun k hk hkx]
      · rw [stateAt_nextHeight, Nat.add_sub_cancel, hprev _ (by omega) le_rfl]
        exact hdiff
    rw [sinceLoop, t.getAncestor_sub]
    cases hj : t.back c.period (some i) with
    | none =>
      rw [hj, boundaryState_none] at hend
      exact ⟨cache, by rw [hend hne.symm], hcache⟩
    | some j =>
      have hjbound : Boundary t c (some j) := hj ▸ hbound.back
      have hstate : state t c (some j) = boundaryState t c (some j) := by
        rw [state_eq hstart, mod_eq_zero_of_dvd hjbound, back_zero]
      obtain ⟨cache', hget, hcache'⟩ := getStateFor_spec htimes hcache (some j)
      dsimp only
      rw [hget, hstate]
      dsimp only
      split
      · rename_i hsame
        have hjheight : t.nHeight j + 1 = t.nHeight i + 1 - c.period := by
          rw [← nextHeight_some, ← hj, t.nextHeight_back, nextHeight_some]
        refine ih hcache' (hbackprev.trans hj) hjbound (fun k hk hkx => ?_) (by omega)
        rcases lt_or_ge (t.nHeight i) k with hik | hki
        · exact hrun k hik hkx
        · rw [hprev k (by omega) hki, hj, hsame]
      · rename_i hdiff
        rw [hj] at hend
        exact ⟨cache', by rw [hend hdiff], hcache'⟩

/-- **`GetStateSinceHeightFor` answers as the recursion does.** -/
theorem getStateSinceHeightFor_spec (hcache : Truthful t c cache)
    (x : Option ι) : ∃ cache', c.getStateSinceHeightFor t cache x = .ok (cache', since t c x) ∧
      Truthful t c cache' := by
  unfold getStateSinceHeightFor
  split
  · rename_i hspecial
    refine ⟨cache, ?_, hcache⟩
    rw [since_eq_zero]
    rcases hspecial with h | h <;> simp [state, h]
  rename_i hspecial
  have hstart := not_or.1 hspecial
  obtain ⟨cache', hget, hcache'⟩ := getStateFor_spec htimes hcache x
  rw [hget]
  dsimp only
  split
  · rename_i hdefined
    refine ⟨cache', ?_, hcache'⟩
    rw [since_eq_zero]
    intro n
    rw [state_back_eq_defined hdefined, hdefined]
  rename_i hne
  cases x with
  | none =>
    rw [state_eq hstart, back_none, boundaryState_none] at hne
    exact absurd rfl hne
  | some i =>
    dsimp only
    rw [periodParent_eq_back]
    have hstate := state_eq (t := t) hstart (some i)
    cases hfirst : t.back (t.nextHeight (some i) % c.period) (some i) with
    | none =>
      rw [hstate, hfirst, boundaryState_none] at hne
      exact absurd rfl hne
    | some first =>
      have hbound : Boundary t c (some first) := hfirst ▸ boundary_back_mod (some i)
      have hheight := t.nextHeight_back (t.nextHeight (some i) % c.period) (some i)
      rw [hfirst, nextHeight_some, nextHeight_some] at hheight
      have hlt := mod_lt (t.nHeight i + 1) c.period_pos
      rw [hfirst] at hstate
      refine sinceLoop_spec htimes hstart hne hcache' hfirst hbound (fun k hk hkx => ?_) (by omega)
      rw [nextHeight_some] at hkx
      rw [hstate, ← hfirst]
      refine stateAt_of_period hstart (hfirst ▸ hbound) ?_ ?_ ?_ ?_ <;>
        rw [nextHeight_some] <;> omega

omit htimes

/-! ## Runs of queries -/

/-- **A query on a truthful cache** is answered as the recursion answers it. -/
theorem ask_spec (htimes : t.TimesAboveMedian) (hcache : Truthful t c cache) (query : Query ι) :
    ∃ cache', c.ask t cache query = .ok (cache', answer t c query) ∧ Truthful t c cache' := by
  cases query with
  | state x =>
    obtain ⟨cache', hget, hcache'⟩ := getStateFor_spec htimes hcache x
    exact ⟨cache', by rw [ask, hget]; rfl, hcache'⟩
  | since x =>
    obtain ⟨cache', hget, hcache'⟩ := getStateSinceHeightFor_spec htimes hcache x
    exact ⟨cache', by rw [ask, hget]; rfl, hcache'⟩

/-- **The cache does not show.** On a tree whose times obey the median rule, any queries on one
cache are answered as the recursion answers them. The states only advance, and the height is the
first of the run of blocks in the state. -/
theorem queries_answered_by_recursion (t : BlockTree ι) (c : ConditionChecker ι)
    (htimes : t.TimesAboveMedian) (queries : List (Query ι)) :
    (∃ cache, Simulation.runAll (c.ask t) ∅ queries = .ok (cache, queries.map (answer t c))) ∧
      (∀ i, state t c (some i) = state t c (t.pprev i) ∨
        Advances (state t c (t.pprev i)) (state t c (some i))) ∧
      ∀ x, IsRunStart (stateAt t c x) (t.nextHeight x) (since t c x) := by
  refine ⟨?_, state_step, fun x => isRunStart_runStart _ _⟩
  obtain ⟨cache, hrun, -⟩ := Simulation.runAll_of_answers
    (fun _ query hcache => ask_spec htimes hcache query) queries ∅ truthful_empty
  exact ⟨cache, hrun⟩

/-- Branches on one block: the times of the others do not reach that of the first. -/
def forkedTree : BlockTree (Fin 5) where
  pprev
    | 0 => none
    | 1 => some 0
    | _ => some 1
  pskip
    | 0 => none
    | _ => some 0
  nHeight
    | 0 => 0
    | 1 => 1
    | _ => 2
  nTime
    | 0 => 10
    | 1 => 20
    | 2 => 30
    | _ => 21
  height_genesis := by decide
  height_child := by decide
  skip_genesis := by decide
  skip_child := by decide

/-- A deployment that the first branch signals for. -/
def signalledOnce : ConditionChecker (Fin 5) where
  condition i := i == 2
  beginTime := 15
  endTime := 25
  minActivationHeight := 0
  period := 1
  threshold := 1
  period_pos := by decide

theorem forkedTree_queries : forkedTree.TimesAboveMedian ∧
      (∃ cache, Simulation.runAll (signalledOnce.ask forkedTree) ∅
        [.state (some 2), .state (some 3), .since (some 3), .state (some 0)] =
          .ok (cache, [.state .lockedIn, .state .started, .since 2, .state .defined])) := by
  have htimes : forkedTree.TimesAboveMedian := by
    unfold BlockTree.TimesAboveMedian
    decide +kernel
  obtain ⟨⟨cache, hrun⟩, -, -⟩ := queries_answered_by_recursion forkedTree signalledOnce htimes
    [.state (some 2), .state (some 3), .since (some 3), .state (some 0)]
  have hanswers : map (answer forkedTree signalledOnce)
      [.state (some 2), .state (some 3), .since (some 3), .state (some 0)] =
        [.state .lockedIn, .state .started, .since 2, .state .defined] := by
    decide +kernel
  exact ⟨htimes, cache, hanswers ▸ hrun⟩

end ConditionChecker

end Quarlcoin.VersionBits
