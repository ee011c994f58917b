import Quarlcoin.Common.Pool
import Quarlcoin.Coins.Plain
/-!
# The prefetching overlay — the workers do not show

What the main thread gets and what it flushes is what a plain cache over the same view would
give (`overlay_transparent`): a slot has one worker at most, a ready slot holds the coin of
the view below, and the main thread only waits for a slot some worker will finish.
-/

namespace Quarlcoin

open Arith Simulation List Nat

namespace Coins

namespace Overlay

/-! ## The queue -/

/-- One for a task that has not returned. -/
def Worker.active : Worker → ℕ
  | .finished => 0
  | _ => 1

theorem Worker.active_le (w : Worker) : w.active ≤ 1 := by cases w <;> simp [Worker.active]

/-- How many moves it has left before the next claim, and that one. -/
def Worker.left : Worker → ℕ
  | .running => 1
  | .claimed _ => 3
  | .fetched _ => 2
  | .finished => 0

variable (s : State)

/-- The moves the workers have left at most. -/
def State.work : ℕ :=
  3 * (s.inputs.length - s.head) + (s.workers.map Worker.left).sum

/-- Worker `k` is at slot `i`. -/
def State.Holds (k i : ℕ) : Prop := s.workers[k]?.bind Worker.index = some i

/-- The main thread waits for the tasks to return. -/
def State.Stopping : Prop := ∃ op, s.main = .stopping op

/-- The queue, the counters and the tasks fit together. -/
structure QueueOk : Prop where
  fits : s.inputs.length + s.workers.length < 2 ^ 32
  /-- Only the last claim of a task goes past the end. -/
  head_le : s.head + (s.workers.map Worker.active).sum ≤ s.inputs.length + s.workers.length
  tail_le : s.tail ≤ s.inputs.length
  claims_nodup : s.claims.Nodup
  claims_lt : ∀ i ∈ s.claims, i < s.head ∧ i < s.inputs.length
  held : ∀ k i, s.Holds k i → i ∈ s.claims
  held_once : ∀ k k' i, s.Holds k i → s.Holds k' i → k = k'
  fetched : ∀ (k i : ℕ) (input : InputToFetch), s.workers[k]? = some (.fetched i) →
    s.inputs[i]? = some input → input.coin = s.base input.outpoint
  ready : ∀ (i : ℕ) (input : InputToFetch), s.inputs[i]? = some input → input.ready = true →
    input.coin = s.base input.outpoint ∧ i ∈ s.claims ∧ ∀ k, ¬ s.Holds k i
  empty : s.workers = [] → s.inputs = [] ∧ s.head = 0 ∧ s.tail = 0
  awaiting : ∀ i op, s.main = .awaiting i op → s.cache.find op.outpoint = none ∧
    ∃ input : InputToFetch, s.inputs[i]? = some input ∧ input.outpoint = op.outpoint
  stopping : s.Stopping → s.workers ≠ []
  /-- A claimed slot is ready or still held. -/
  served : ¬ s.Stopping → ∀ (i : ℕ) (input : InputToFetch), i < s.head →
    s.inputs[i]? = some input → input.ready = true ∨ ∃ k, s.Holds k i
  /-- A task does not return while there are slots to claim. -/
  unfinished : ¬ s.Stopping → Worker.finished ∈ s.workers → s.inputs.length ≤ s.head

variable {s s' : State} {k i : ℕ} {w w' : Worker}

section

variable (hw : s.workers[k]? = some w)
include hw

theorem holds_set (hset : s'.workers = s.workers.set k w') (j i : ℕ) :
    s'.Holds j i ↔ if j = k then w'.index = some i else s.Holds j i := by
  rw [State.Holds, hset, Pool.getElem?_set_of_getElem? hw]
  split
  · rfl
  · rfl

theorem holds_of_getElem? : s.Holds k i ↔ w.index = some i := by
  rw [State.Holds, hw]
  rfl

theorem set_ne_nil : s.workers.set k w' ≠ [] := by
  intro hnil
  rw [set_eq_nil_iff] at hnil
  rw [hnil] at hw
  cases hw

theorem workerStep_isSome (hne : w ≠ .finished) : (s.workerStep k).isSome := by
  rw [State.workerStep, hw]
  cases w with
  | finished => exact absurd rfl hne
  | running =>
    simp only
    split <;> rfl
  | claimed i =>
    simp only
    cases s.inputs[i]? <;> rfl
  | fetched i =>
    simp only
    cases s.inputs[i]? with
    | none => rfl
    | some input =>
      simp only
      split <;> rfl

end

variable {input input' : InputToFetch} {op : MainOp}

namespace QueueOk

theorem head_succ (h : QueueOk s) (hw : s.workers[k]? = some .running) :
    (s.head + 1) % 2 ^ 32 = s.head + 1 := by
  have hsum := Pool.sum_map_set Worker.active .finished hw
  have hle := h.head_le
  have hfits := h.fits
  simp only [Worker.active] at hsum
  exact mod_eq_of_lt (by omega)

/-- **A claim** is of the first slot that has none, since every claim before was
below the head. Past the end it ends the task. -/
theorem claim (h : QueueOk s) (hw : s.workers[k]? = some .running) {claims : List ℕ}
    (hmove : s.inputs.length ≤ s.head ∧ w' = .finished ∧ claims = s.claims ∨
      s.head < s.inputs.length ∧ w' = .claimed s.head ∧ claims = s.claims ++ [s.head]) :
    QueueOk { s with
      head := (s.head + 1) % 2 ^ 32, workers := s.workers.set k w', claims := claims } := by
  have hsum := Pool.sum_map_set Worker.active w' hw
  have hactive := Pool.sum_map_le_length Worker.active_le s.workers
  have hfits := h.fits
  have hle := h.head_le
  rw [h.head_succ hw]
  have hmem : ∀ i, i ∈ claims ↔ i ∈ s.claims ∨ i = s.head ∧ s.head < s.inputs.length := by
    rcases hmove with ⟨hend, -, rfl⟩ | ⟨hlt, -, rfl⟩
    · simp [hend.not_gt]
    · simp [hlt]
  have hholds : ∀ j i, State.Holds { s with
      head := s.head + 1, workers := s.workers.set k w', claims := claims } j i ↔
        s.Holds j i ∨ j = k ∧ i = s.head ∧ s.head < s.inputs.length := by
    intro j i
    rw [holds_set hw rfl]
    split_ifs with hj
    · rw [hj, holds_of_getElem? hw]
      rcases hmove with ⟨hend, rfl, -⟩ | ⟨hlt, rfl, -⟩
      · simp [Worker.index, hend.not_gt]
      · simp [Worker.index, hlt, eq_comm]
    · simp [hj]
  -- the head is not held yet: what is held is claimed, and claims are below the head
  have hnew : ∀ j, ¬ s.Holds j s.head := by
    intro j hj
    have := h.claims_lt s.head (h.held j s.head hj)
    omega
  constructor
  · simpa using hfits
  · simp only [length_set]
    rcases hmove with ⟨-, rfl, -⟩ | ⟨_, rfl, -⟩ <;> simp only [Worker.active] at hsum <;> omega
  · exact h.tail_le
  · rcases hmove with ⟨-, -, rfl⟩ | ⟨-, -, rfl⟩
    · exact h.claims_nodup
    · rw [← concat_eq_append]
      exact h.claims_nodup.concat fun hi => absurd (h.claims_lt _ hi).1 (lt_irrefl _)
  · intro i hi
    rcases (hmem i).mp hi with hi | ⟨rfl, hlt⟩
    · have := h.claims_lt i hi
      exact ⟨lt_succ_of_lt this.1, this.2⟩
    · exact ⟨lt_succ_self _, hlt⟩
  · intro j i hj
    exact (hmem i).mpr (((hholds j i).mp hj).imp (h.held j i) And.right)
  · intro j j' i hj hj'
    rcases (hholds j i).mp hj with hj | ⟨rfl, rfl, -⟩
    · rcases (hholds j' i).mp hj' with hj' | ⟨-, rfl, -⟩
      · exact h.held_once j j' i hj hj'
      · exact absurd hj (hnew j)
    · exact ((hholds j' s.head).mp hj').elim (absurd · (hnew j')) fun hk => hk.1.symm
  · intro j i input hj hi
    refine h.fetched j i input ?_ hi
    simp only [Pool.getElem?_set_of_getElem? hw] at hj
    split at hj
    · rcases hmove with ⟨-, rfl, -⟩ | ⟨-, rfl, -⟩ <;> cases hj
    · exact hj
  · intro i input hi hr
    obtain ⟨hcoin, hclaim, hfree⟩ := h.ready i input hi hr
    refine ⟨hcoin, (hmem i).mpr (.inl hclaim), fun j hj => ?_⟩
    rcases (hholds j i).mp hj with hj | ⟨-, rfl, -⟩
    · exact hfree j hj
    · exact absurd (h.claims_lt _ hclaim).1 (lt_irrefl _)
  · intro hnil
    exact absurd hnil (set_ne_nil hw)
  · exact h.awaiting
  · intro _
    exact set_ne_nil hw
  · intro hs i input hi hinput
    have hlen : i < s.inputs.length := (List.getElem?_eq_some_iff.mp hinput).1
    rcases (Nat.lt_succ_iff.mp hi).eq_or_lt with rfl | hi
    · exact .inr ⟨k, (hholds k _).mpr (.inr ⟨rfl, rfl, hlen⟩)⟩
    · exact (h.served hs i input hi hinput).imp id fun ⟨j, hj⟩ => ⟨j, (hholds j i).mpr (.inl hj)⟩
  · intro hs hfinished
    show s.inputs.length ≤ s.head + 1
    rcases mem_or_eq_of_mem_set hfinished with hold | rfl
    · exact (h.unfinished hs hold).trans (le_succ _)
    · rcases hmove with ⟨hend, -, -⟩ | ⟨-, heq, -⟩
      · exact hend.trans (le_succ _)
      · cases heq

/-- A move of worker `k` that sets the slot it is at: the slot keeps its
outpoint, and the others stay as they are. -/
theorem getElem?_set_input {i : ℕ} (hi : s.inputs[i]? = some input)
    {j : ℕ} {x : InputToFetch} (hj : (s.inputs.set i input')[j]? = some x) :
    (j = i ∧ x = input') ∨ (j ≠ i ∧ s.inputs[j]? = some x) := by
  rw [Pool.getElem?_set_of_getElem? hi] at hj
  split_ifs at hj with hji
  · exact .inl ⟨hji, (Option.some.inj hj).symm⟩
  · exact .inr ⟨hji, hj⟩

/-- **A move at a slot**: the worker that holds it has stored the coin and
goes on to mark it, or marks it and lets go. -/
theorem atSlot (h : QueueOk s) (hw : s.workers[k]? = some w)
    (hindex : w.index = some i) (hi : s.inputs[i]? = some input)
    (hout : input'.outpoint = input.outpoint) (hcoin : input'.coin = s.base input'.outpoint)
    (hmove : w' = .fetched i ∧ input'.ready = false ∨ w' = .running ∧ input'.ready = true) :
    QueueOk { s with inputs := s.inputs.set i input', workers := s.workers.set k w' } := by
  have hhold : s.Holds k i := (holds_of_getElem? hw).mpr hindex
  have hactive : w.active = 1 ∧ w'.active = 1 := by
    refine ⟨by cases w <;> simp_all [Worker.index, Worker.active], ?_⟩
    rcases hmove with ⟨rfl, -⟩ | ⟨rfl, -⟩ <;> rfl
  have hsum := Pool.sum_map_set Worker.active w' hw
  -- what is held afterwards was held before, and at slot `i` only if it is not ready
  have hsub : ∀ j x, State.Holds { s with
      inputs := s.inputs.set i input', workers := s.workers.set k w' } j x → s.Holds j x := by
    intro j x hj
    rw [holds_set hw rfl] at hj
    split_ifs at hj with hjk
    · rw [hjk]
      rcases hmove with ⟨rfl, -⟩ | ⟨rfl, -⟩
      · rw [Worker.index, Option.some.injEq] at hj
        exact hj ▸ hhold
      · cases hj
    · exact hj
  constructor
  · simpa using h.fits
  · simp only [length_set]
    have := h.head_le
    omega
  · simpa using h.tail_le
  · exact h.claims_nodup
  · simpa using h.claims_lt
  · intro j x hj
    exact h.held j x (hsub j x hj)
  · intro j j' x hj hj'
    exact h.held_once j j' x (hsub j x hj) (hsub j' x hj')
  · intro j x slot hj hx
    rcases getElem?_set_input hi hx with ⟨-, rfl⟩ | ⟨hne, hx⟩
    · exact hcoin
    refine h.fetched j x slot ?_ hx
    simp only [Pool.getElem?_set_of_getElem? hw] at hj
    split at hj
    · rcases hmove with ⟨rfl, -⟩ | ⟨rfl, -⟩
      · cases hj
        exact absurd rfl hne
      · cases hj
    · exact hj
  · intro x slot hx hr
    rcases getElem?_set_input hi hx with ⟨rfl, rfl⟩ | ⟨-, hx⟩
    · refine ⟨hcoin, h.held k x hhold, ?_⟩
      intro j hj
      have hjk := h.held_once j k x (hsub j x hj) hhold
      rw [holds_set hw rfl, if_pos hjk] at hj
      rcases hmove with ⟨-, hnot⟩ | ⟨rfl, -⟩
      · rw [hnot] at hr
        cases hr
      · cases hj
    · obtain ⟨hc, hmem, hfree⟩ := h.ready x slot hx hr
      exact ⟨hc, hmem, fun j hj => hfree j (hsub j x hj)⟩
  · intro hnil
    exact absurd hnil (set_ne_nil hw)
  · intro x op hop
    obtain ⟨hfind, slot, hx, hslot⟩ := h.awaiting x op hop
    refine ⟨hfind, ?_⟩
    by_cases hxi : x = i
    · subst hxi
      rw [hi, Option.some.injEq] at hx
      exact ⟨input', by simp [Pool.getElem?_set_of_getElem? hi], by rw [hout, hx, hslot]⟩
    · exact ⟨slot, by simp [Pool.getElem?_set_of_getElem? hi, hxi, hx], hslot⟩
  · intro _
    exact set_ne_nil hw
  · intro hs x slot hlt hx
    rcases getElem?_set_input hi hx with ⟨rfl, rfl⟩ | ⟨hne, hx⟩
    · rcases hmove with ⟨rfl, -⟩ | ⟨-, hr⟩
      · exact .inr ⟨k, (holds_set hw rfl k x).mpr (by rw [if_pos rfl]; rfl)⟩
      · exact .inl hr
    rcases h.served hs x slot hlt hx with hr | ⟨j, hj⟩
    · exact .inl hr
    · refine .inr ⟨j, (holds_set hw rfl j x).mpr ?_⟩
      split_ifs with hjk
      · rw [hjk, holds_of_getElem? hw, hindex, Option.some.injEq] at hj
        exact absurd hj.symm hne
      · exact hj
  · intro hs hmem
    rw [length_set]
    refine h.unfinished hs ?_
    rcases mem_or_eq_of_mem_set hmem with hold | heq
    · exact hold
    · rcases hmove with ⟨rfl, -⟩ | ⟨rfl, -⟩ <;> cases heq

/-! ## Moves of the workers -/

/-- **A worker's move** keeps the queue in order, breaks no assertion, leaves less
to do, and touches nothing of the main thread's. -/
theorem workerStep (h : QueueOk s) (hstep : s.workerStep k = some s') :
    QueueOk s' ∧ s'.work < s.work ∧ s'.toPlain = s.toPlain ∧ s'.main = s.main ∧
      s'.aborted = s.aborted ∧ s'.log = s.log := by
  rw [State.workerStep] at hstep
  cases hw : s.workers[k]? with
  | none => rw [hw] at hstep; cases hstep
  | some w => ?_
  have hleft : ∀ w', ((s.workers.set k w').map Worker.left).sum + w.left =
      (s.workers.map Worker.left).sum + w'.left := fun w' => Pool.sum_map_set Worker.left w' hw
  have hslot : ∀ i, w.index = some i → s.Holds k i ∧ ∃ input, s.inputs[i]? = some input := by
    intro i hindex
    have hhold := (holds_of_getElem? hw).2 hindex
    exact ⟨hhold, _, getElem?_eq_getElem (h.claims_lt i (h.held k i hhold)).2⟩
  rw [hw] at hstep
  cases w with
  | finished => cases hstep
  | running =>
    have hmod := h.head_succ hw
    simp only at hstep
    split_ifs at hstep with hend
    · cases hstep
      refine ⟨h.claim hw (.inl ⟨hend, rfl, rfl⟩), ?_, rfl, rfl, rfl, rfl⟩
      have := hleft .finished
      simp only [Worker.left] at this
      simp only [State.work]
      omega
    · cases hstep
      refine ⟨h.claim hw (.inr ⟨by omega, rfl, rfl⟩), ?_, rfl, rfl, rfl, rfl⟩
      have := hleft (.claimed s.head)
      simp only [Worker.left] at this
      simp only [State.work]
      omega
  | claimed i =>
    obtain ⟨hhold, input, hi⟩ := hslot i rfl
    have hnot : input.ready = false := by
      by_contra hne
      exact (h.ready i _ hi (by simpa using hne)).2.2 k hhold
    simp only [hi] at hstep
    cases hstep
    refine ⟨h.atSlot hw rfl hi rfl rfl (.inl ⟨rfl, hnot⟩), ?_, rfl, rfl, rfl, rfl⟩
    have := hleft (.fetched i)
    simp only [Worker.left] at this
    simp only [State.work, length_set]
    omega
  | fetched i =>
    obtain ⟨hhold, input, hi⟩ := hslot i rfl
    simp only [hi] at hstep
    split_ifs at hstep with hr
    · exact absurd hhold ((h.ready i _ hi hr).2.2 k)
    cases hstep
    refine ⟨h.atSlot hw rfl hi rfl (h.fetched k i input hw hi) (.inr ⟨rfl, rfl⟩), ?_, rfl, rfl,
      rfl, rfl⟩
    have := hleft .running
    simp only [Worker.left] at this
    simp only [State.work, length_set]
    omega

/-! ## Moves of the main thread -/

theorem not_stopping {m : Main} (hm : s.main = m) (hne : ∀ op, m ≠ .stopping op) :
    ¬ s.Stopping := by
  rintro ⟨op, hop⟩
  exact hne op (hm.symm.trans hop)

theorem complete (h : QueueOk s) (hs : ¬ s.Stopping) (op : MainOp) (r : CoinsViewCache × Result) :
    QueueOk (s.complete op r) :=
  { h with
    awaiting := by
      intro i op hop
      cases hop
    stopping := by
      rintro ⟨op, hop⟩
      cases hop
    served := fun _ => h.served hs
    unfinished := fun _ => h.unfinished hs }

/-- **Taking the slot at the tail.** -/
theorem await (h : QueueOk s) (hs : ¬ s.Stopping) {op : FetchOp}
    (hfind : s.cache.find op.outpoint = none) (hinput : s.inputs[s.tail]? = some input)
    (hout : input.outpoint = op.outpoint) :
    QueueOk { s with tail := (s.tail + 1) % 2 ^ 32, main := .awaiting s.tail op } := by
  have hlt : s.tail < s.inputs.length := (List.getElem?_eq_some_iff.mp hinput).1
  have hfits := h.fits
  have hmod : (s.tail + 1) % 2 ^ 32 = s.tail + 1 := mod_eq_of_lt (by omega)
  rw [hmod]
  exact
    { h with
      tail_le := hlt
      empty := by
        intro hnil
        have hnone := (h.empty hnil).1
        rw [hnone] at hinput
        cases hinput
      awaiting := by
        rintro i op' ⟨⟩
        exact ⟨hfind, input, hinput, hout⟩
      stopping := by
        rintro ⟨op', hop⟩
        cases hop
      served := fun _ => h.served hs
      unfinished := fun _ => h.unfinished hs }

/-- **Stopping**: the head moves to the end, so that nothing more is claimed. -/
theorem beginStop (h : QueueOk s) (hne : s.workers ≠ []) (c : CoinsViewCache) (op : StopOp) :
    QueueOk { s with cache := c, head := s.inputs.length % 2 ^ 32, main := .stopping op } := by
  have hfits := h.fits
  have hactive := Pool.sum_map_le_length Worker.active_le s.workers
  have hmod : s.inputs.length % 2 ^ 32 = s.inputs.length := mod_eq_of_lt (by omega)
  rw [hmod]
  exact
    { h with
      head_le := Nat.add_le_add_left hactive _
      claims_lt := fun i hi => ⟨(h.claims_lt i hi).2, (h.claims_lt i hi).2⟩
      empty := fun hnil => absurd hnil hne
      awaiting := by
        intro i op' hop
        cases hop
      stopping := fun _ => hne
      served := fun hs => absurd ⟨op, rfl⟩ hs
      unfinished := fun hs => absurd ⟨op, rfl⟩ hs }

/-- **A new queue**, with all its tasks about to start; it may be empty. -/
theorem of_fresh (hfits : s.inputs.length + s.workers.length < 2 ^ 32) (hhead : s.head = 0)
    (htail : s.tail = 0) (hclaims : s.claims = []) (hmain : s.main = .idle)
    (hrunning : ∀ w ∈ s.workers, w = .running) (hready : ∀ input ∈ s.inputs, input.ready = false)
    (hempty : s.workers = [] → s.inputs = []) : QueueOk s := by
  have hnone : ∀ k i, ¬ s.Holds k i := by
    intro k i hk
    obtain ⟨w, hw, hindex⟩ := Option.bind_eq_some_iff.1 hk
    rw [hrunning w (mem_of_getElem? hw)] at hindex
    cases hindex
  constructor
  · exact hfits
  · rw [hhead]
    exact Nat.add_le_add (Nat.zero_le _) (Pool.sum_map_le_length Worker.active_le s.workers)
  · simp [htail]
  · simp [hclaims]
  · simp [hclaims]
  · intro k i hk
    exact absurd hk (hnone k i)
  · intro k k' i hk
    exact absurd hk (hnone k i)
  · intro k i input hk
    cases hrunning _ (mem_of_getElem? hk)
  · intro i input hi hr
    rw [hready input (mem_of_getElem? hi)] at hr
    cases hr
  · intro hnil
    exact ⟨hempty hnil, hhead, htail⟩
  · intro i op hop
    cases hmain.symm.trans hop
  · rintro ⟨op, hop⟩
    cases hmain.symm.trans hop
  · intro _ i input hi
    rw [hhead] at hi
    cases hi
  · intro _ hmem
    cases hrunning _ hmem

theorem of_empty (hinputs : s.inputs = []) (hhead : s.head = 0) (htail : s.tail = 0)
    (hworkers : s.workers = []) (hclaims : s.claims = []) (hmain : s.main = .idle) : QueueOk s :=
  of_fresh (by simp [hinputs, hworkers]) hhead htail hclaims hmain (by simp [hworkers])
    (by simp [hinputs]) fun _ => hinputs

theorem abort (h : QueueOk s) (a : Abort) : QueueOk { s with aborted := some a } := { h with }

/-! ## Progress -/

/-- **The main thread never waits in vain**: while it cannot go on, some
worker can. -/
theorem exists_move (h : QueueOk s) (commit : Commit) (hmain : s.main ≠ .idle)
    (hblocked : s.resume commit = none) : ∃ k, (s.workerStep k).isSome := by
  cases hm : s.main with
  | idle => exact absurd hm hmain
  | awaiting i op =>
    have hs : ¬ s.Stopping := not_stopping hm fun _ => nofun
    obtain ⟨-, input, hi, -⟩ := h.awaiting i op hm
    have hnot : ¬ input.ready = true := by
      intro hr
      simp [State.resume, hm, hi, hr] at hblocked
    by_cases hlt : i < s.head
    · rcases h.served hs i input hlt hi with hr | ⟨k, hk⟩
      · exact absurd hr hnot
      · obtain ⟨w, hw, hindex⟩ := Option.bind_eq_some_iff.mp hk
        exact ⟨k, workerStep_isSome hw (by rintro rfl; cases hindex)⟩
    have hlen : i < s.inputs.length := (List.getElem?_eq_some_iff.mp hi).1
    cases hws : s.workers with
    | nil =>
      rw [(h.empty hws).1] at hlen
      cases hlen
    | cons w ws =>
      refine ⟨0, workerStep_isSome (by rw [hws]; rfl) ?_⟩
      rintro rfl
      have := h.unfinished hs (by rw [hws]; exact mem_cons_self)
      omega
  | stopping op =>
    have hnot : ¬ (s.workers.all fun w => w == .finished) = true := by
      intro hall
      simp [State.resume, hm, hall] at hblocked
    rw [all_eq_true] at hnot
    push Not at hnot
    obtain ⟨w, hw, hne⟩ := hnot
    obtain ⟨k, hk⟩ := getElem?_of_mem hw
    exact ⟨k, workerStep_isSome hk (by rintro rfl; exact hne (by simp))⟩

/-- **So it goes on**, after some moves of the workers. -/
theorem unblocked (getHash : Transaction → Uint256) (commit : Commit) :
    ∀ (n : ℕ) (s : State), QueueOk s → s.aborted = none → s.main ≠ .idle → s.work ≤ n →
      ∃ (ks : List ℕ) (s' : State), s.run getHash commit (ks.map Event.worker) = some s' ∧
        (s'.resume commit).isSome := by
  intro n
  induction n with
  | zero =>
    intro s h _ hmain hwork
    refine ⟨[], s, rfl, ?_⟩
    by_contra hnone
    obtain ⟨k, hk⟩ := h.exists_move commit hmain (by simpa using hnone)
    obtain ⟨s', hs'⟩ := Option.isSome_iff_exists.mp hk
    have := (h.workerStep hs').2.1
    omega
  | succ n ih =>
    intro s h habort hmain hwork
    cases hres : s.resume commit with
    | some s' => exact ⟨[], s, rfl, by rw [hres]; rfl⟩
    | none =>
      obtain ⟨k, hk⟩ := h.exists_move commit hmain hres
      obtain ⟨s₁, hs₁⟩ := Option.isSome_iff_exists.mp hk
      obtain ⟨h₁, hlt, -, hmain₁, habort₁, -⟩ := h.workerStep hs₁
      obtain ⟨ks, s', hrun, hsome⟩ := ih s₁ h₁ (habort₁.trans habort) (by rwa [hmain₁]) (by omega)
      refine ⟨k :: ks, s', ?_, hsome⟩
      simp only [map_cons, State.run, State.step, habort, hs₁, hrun]

end QueueOk

/-! ## Every run -/

/-- The counters have room for the queue of the block and a last claim of
every task. -/
def Event.Fits (getHash : Transaction → Uint256) : Event → Prop
  | .main (.startFetching vtx n _) => (State.queued getHash (vtx.drop 1) []).length + n < 2 ^ 32
  | _ => True

/-- An assertion of the queue has not failed. -/
structure Sound (aborted : Option Abort) : Prop where
  queueEmpty : aborted ≠ some .queueNotEmpty
  readyOnce : aborted ≠ some .slotReadyTwice
  inRange : aborted ≠ some .outOfRange

theorem sound_none : Sound none := ⟨nofun, nofun, nofun⟩

theorem sound_ofResult (r : Result) : Sound (Abort.ofResult r) := by
  have hcases : Abort.ofResult r = none ∨ ∃ f, Abort.ofResult r = some (.cache f) := by
    cases r with
    | fault f => cases f <;> simp [Abort.ofResult]
    | _ => exact .inl rfl
  rcases hcases with h | ⟨f, h⟩ <;> rw [h] <;> exact ⟨nofun, nofun, nofun⟩

section

variable (commit : Commit) (base₀ : CoinMap) (hash₀ : Uint256)

/-- What every event keeps. -/
structure Inv (s : State) : Prop where
  agrees : Agrees commit base₀ hash₀ s
  queue : QueueOk s
  stopped : ∀ op r, s.log.getLast? = some (.stop op, r) → s.workers = []
  sound : Sound s.aborted

end

variable {getHash : Transaction → Uint256} {commit : Commit} {base₀ : CoinMap} {hash₀ : Uint256}

namespace Inv

theorem complete (h : Inv commit base₀ hash₀ s) (hs : ¬ s.Stopping)
    {r : CoinsViewCache × Result} (hop : ∀ op', op ≠ .stop op')
    (hagrees : Agrees commit base₀ hash₀ (s.complete op r)) :
    Inv commit base₀ hash₀ (s.complete op r) where
  agrees := hagrees
  queue := h.queue.complete hs op r
  stopped := by
    intro op' r' hlast
    simp only [State.complete, getLast?_append, getLast?_singleton, Option.some_or,
      Option.some.injEq, Prod.mk.injEq] at hlast
    exact absurd hlast.1 (hop op')
  sound := sound_ofResult r.2

theorem finishStop (hagrees : Agrees commit base₀ hash₀ s) (op : StopOp) (hinputs : s.inputs = [])
    (hhead : s.head = 0) (htail : s.tail = 0) (hworkers : s.workers = [])
    (hclaims : s.claims = []) : Inv commit base₀ hash₀ (s.finishStop commit op) where
  agrees := hagrees.finishStop op
  queue := QueueOk.of_empty hinputs hhead htail hworkers hclaims rfl
  stopped := fun _ _ _ => hworkers
  sound := sound_ofResult _

section

variable (h : Inv commit base₀ hash₀ s)
include h

theorem startFetching (hmain : s.main = .idle) (vtx : List Transaction) (n : ℕ) (submitted : Bool)
    (hfits : (State.queued getHash (vtx.drop 1) []).length + n < 2 ^ 32) :
    Inv commit base₀ hash₀ (s.startFetching getHash vtx n submitted) := by
  have hs : ¬ s.Stopping := QueueOk.not_stopping hmain fun _ => nofun
  rw [State.startFetching]
  simp only
  split
  · rename_i hempty
    simp only [Bool.and_eq_true, beq_iff_eq] at hempty
    obtain ⟨⟨⟨-, -⟩, hhead⟩, htail⟩ := hempty
    split_ifs with hstart
    · exact h.complete hs (fun _ => nofun) (h.agrees.local_ fun _ => rfl)
    simp only [Bool.or_eq_true, not_or] at hstart
    have hq : QueueOk (s.enqueue (State.queued getHash (vtx.drop 1) []) n) :=
      .of_fresh (by simpa [State.enqueue] using hfits) hhead htail rfl hmain
        (fun w hw => eq_of_mem_replicate hw) (by simp [State.enqueue]) fun hnil =>
          absurd (by simpa [State.enqueue] using hnil) hstart.1.1
    have hagrees : Agrees commit base₀ hash₀
        (s.enqueue (State.queued getHash (vtx.drop 1) []) n) := h.agrees.congr rfl rfl
    refine ⟨hagrees.local_ fun _ => rfl, hq.complete hs _ _, ?_, sound_none⟩
    intro op' r' hlast
    simp [State.complete] at hlast
  · exact ⟨h.agrees.congr rfl rfl, h.queue.abort _, h.stopped, ⟨nofun, nofun, nofun⟩⟩

theorem beginStop (op : StopOp) : Inv commit base₀ hash₀ (s.beginStop commit op) := by
  have hagrees := h.agrees.warnUnconsumed op
  rw [State.beginStop]
  split
  · rename_i hworkers
    have hworkers : s.workers = [] := by simpa using hworkers
    obtain ⟨hinputs, hhead, htail⟩ := h.queue.empty hworkers
    have hclaims : s.claims = [] := by
      rw [eq_nil_iff_forall_not_mem]
      intro i hi
      have := (h.queue.claims_lt i hi).2
      rw [hinputs] at this
      cases this
    rw [if_pos (by simp [hinputs, hhead, htail])]
    exact finishStop hagrees op hinputs hhead htail hworkers hclaims
  · rename_i hworkers
    have hne : s.workers ≠ [] := by simpa using hworkers
    exact ⟨hagrees.congr rfl rfl, h.queue.beginStop hne _ op, h.stopped, h.sound⟩

/-- **The main thread starts an operation.** -/
theorem mainStep (hfits : ∀ vtx n submitted, op = .startFetching vtx n submitted →
      (State.queued getHash (vtx.drop 1) []).length + n < 2 ^ 32)
    (hstep : s.mainStep getHash commit op = some s') : Inv commit base₀ hash₀ s' := by
  unfold State.mainStep at hstep
  cases hm : s.main with
  | awaiting | stopping => simp [hm] at hstep
  | idle =>
    have hs : ¬ s.Stopping := QueueOk.not_stopping hm fun _ => nofun
    simp only [hm] at hstep
    cases op with
    | fetch op =>
      simp only at hstep
      cases hfind : s.cache.find op.outpoint with
      | some e =>
        rw [hfind] at hstep
        cases hstep
        refine h.complete hs (fun _ => nofun) (h.agrees.fetch ?_)
        intro hnone
        rw [hfind] at hnone
        cases hnone
      | none =>
        rw [hfind] at hstep
        cases hstep
        have hfetch : Agrees commit base₀ hash₀
            (s.complete (.fetch op) (runFetch s.cache (s.base op.outpoint) op)) :=
          h.agrees.fetch fun _ => rfl
        have hdirect := h.complete hs (by rintro op' ⟨⟩) hfetch
        rw [State.fetchFromBase]
        cases hinput : s.inputs[s.tail]? with
        | none => exact hdirect
        | some input =>
          simp only
          split_ifs with hout
          · exact ⟨h.agrees.congr rfl rfl, h.queue.await hs hfind hinput hout, h.stopped, h.sound⟩
          · exact hdirect
    | startFetching vtx n submitted =>
      cases hstep
      exact h.startFetching hm vtx n submitted (hfits vtx n submitted rfl)
    | stop op =>
      cases hstep
      exact h.beginStop op
    | addCoin | peekCoin | uncache | setBestBlock =>
      cases hstep
      exact h.complete hs (fun _ => nofun) (h.agrees.local_ fun _ => rfl)

/-- **It goes on after a wait**: a ready slot has the coin of the view below. -/
theorem resume (hstep : s.resume commit = some s') : Inv commit base₀ hash₀ s' := by
  rw [State.resume] at hstep
  cases hm : s.main with
  | idle => simp [hm] at hstep
  | awaiting i op =>
    have hs : ¬ s.Stopping := QueueOk.not_stopping hm fun _ => nofun
    obtain ⟨-, input, hi, hout⟩ := h.queue.awaiting i op hm
    simp only [hm, hi] at hstep
    split at hstep
    · rename_i hr
      cases hstep
      refine h.complete hs (fun _ => nofun) (h.agrees.fetch fun _ => ?_)
      rw [(h.queue.ready i input hi hr).1, hout]
    · cases hstep
  | stopping op =>
    simp only [hm] at hstep
    split at hstep
    · cases hstep
      have hagrees : Agrees commit base₀ hash₀ s.clearQueue := h.agrees.congr rfl rfl
      exact finishStop hagrees op rfl rfl rfl rfl rfl
    · cases hstep

/-- **One event.** -/
theorem step {e : Event} (hfits : e.Fits getHash)
    (hstep : s.step getHash commit e = some s') : Inv commit base₀ hash₀ s' := by
  unfold State.step at hstep
  cases ha : s.aborted with
  | some a => simp [ha] at hstep
  | none =>
    simp only [ha] at hstep
    cases e with
    | main op =>
      refine h.mainStep ?_ hstep
      rintro vtx n submitted rfl
      exact hfits
    | resume => exact h.resume hstep
    | worker k =>
      obtain ⟨hq, -, hplain, -, habort, hlog⟩ := h.queue.workerStep hstep
      refine ⟨h.agrees.congr hlog hplain, hq, ?_, by rw [habort]; exact h.sound⟩
      intro op r hlast
      rw [hlog] at hlast
      have hnil := h.stopped op r hlast
      simp [State.workerStep, hnil] at hstep

end

/-- **Every sequence of events.** -/
theorem run : ∀ (events : List Event) (s : State), Inv commit base₀ hash₀ s →
    (∀ e ∈ events, e.Fits getHash) → ∀ s', s.run getHash commit events = some s' →
    Inv commit base₀ hash₀ s' := by
  intro events
  induction events with
  | nil =>
    rintro s h _ s' ⟨⟩
    exact h
  | cons e events ih =>
    intro s h hfits s' hrun
    rw [State.run] at hrun
    cases hstep : s.step getHash commit e with
    | none => simp [hstep] at hrun
    | some s₁ =>
      simp only [hstep] at hrun
      exact ih s₁ (h.step (hfits e mem_cons_self) hstep)
        (fun e' he' => hfits e' (mem_cons_of_mem e he')) s' hrun

end Inv

def State.initial (base : CoinMap) (baseHash : Uint256) : State := { base, baseHash }

theorem inv_initial : Inv commit base₀ hash₀ (State.initial base₀ hash₀) where
  agrees := ⟨rfl, rfl, rfl, fun hne => absurd rfl hne⟩
  queue := QueueOk.of_empty rfl rfl rfl rfl rfl rfl
  stopped := by
    intro op r hlast
    cases hlast
  sound := sound_none

/-- What can be said of the overlay at any time. -/
structure Transparent (getHash : Transaction → Uint256) (commit : Commit) (base₀ : CoinMap)
    (hash₀ : Uint256) (s : State) : Prop where
  /-- The main thread got what a plain cache would have given it, and every
  flush handed down the same entries. -/
  results : (plainRun commit base₀ hash₀ s.log).2 = s.log.map Prod.snd
  /-- The coins are those of the plain cache now. -/
  tracks : Tracks (plainRun commit base₀ hash₀ s.log).1 s.toPlain
  /-- No slot is claimed twice. -/
  claimedOnce : s.claims.Nodup
  /-- No two workers are at one slot. -/
  heldOnce : ∀ k k' i, s.Holds k i → s.Holds k' i → k = k'
  /-- The main thread reads a slot when it is ready, and nobody else is there. -/
  readReady : ∀ i op s', s.main = .awaiting i op → s.resume commit = some s' →
    ∃ input, s.inputs[i]? = some input ∧ input.ready = true ∧
      input.coin = s.base op.outpoint ∧ ∀ k, ¬ s.Holds k i
  /-- After a stop the queue is empty. -/
  stopped : ∀ op r, s.log.getLast? = some (.stop op, r) →
    s.workers = [] ∧ s.inputs = [] ∧ s.head = 0 ∧ s.tail = 0
  /-- The assertions of the queue hold. -/
  sound : Sound s.aborted
  /-- A wait comes to an end. -/
  unblocked : s.aborted = none → s.main ≠ .idle →
    ∃ (ks : List ℕ) (s' : State), s.run getHash commit (ks.map Event.worker) = some s' ∧
      (s'.resume commit).isSome

/-- **Prefetching does not show.** -/
theorem overlay_transparent (getHash : Transaction → Uint256) (commit : Commit) (base₀ : CoinMap)
    (hash₀ : Uint256) (events : List Event) (hfits : ∀ e ∈ events, e.Fits getHash) (s : State)
    (hrun : (State.initial base₀ hash₀).run getHash commit events = some s) :
    Transparent getHash commit base₀ hash₀ s := by
  have h : Inv commit base₀ hash₀ s := Inv.run events _ inv_initial hfits s hrun
  refine ⟨h.agrees.results, h.agrees.tracks, h.queue.claims_nodup, h.queue.held_once, ?_, ?_,
    h.sound, fun habort hmain => h.queue.unblocked getHash commit _ s habort hmain le_rfl⟩
  · intro i op s' hm hres
    obtain ⟨-, input, hi, hout⟩ := h.queue.awaiting i op hm
    simp only [State.resume, hm, hi] at hres
    split at hres
    · rename_i hr
      obtain ⟨hcoin, -, hfree⟩ := h.queue.ready i input hi hr
      exact ⟨input, hi, hr, by rw [hcoin, hout], hfree⟩
    · cases hres
  · intro op r hlast
    have hworkers := h.stopped op r hlast
    exact ⟨hworkers, h.queue.empty hworkers⟩

/-! A block whose second transaction spends one coin of the view below and one
that is missing there, with two workers. The main thread asks for the first
coin before it is ready, asks for another one out of order, and flushes while
a worker is still at the second slot. -/

def someBase : CoinMap := Function.update (fun _ => none) ⟨1, 0⟩ (some CoinsView.someCoin)

def someInput (hash : Uint256) : TxIn :=
  { prevout := ⟨hash, 0⟩, scriptSig := [], nSequence := 0, scriptWitness := [] }

def someBlock : List Transaction :=
  [{ vin := [someInput 0], vout := [], version := 2, nLockTime := 0 },
    { vin := [someInput 1, someInput 2], vout := [], version := 2, nLockTime := 0 }]

def someCommit : Commit := fun base entries =>
  entries.foldl (fun m p => Function.update m p.1 p.2.value) base

def someEvents : List Event :=
  [.main (.startFetching someBlock 2 true), .worker 0, .worker 1, .main (.fetch (.spendCoin ⟨1, 0⟩)),
    .worker 0, .worker 1, .worker 0, .resume, .main (.fetch (.getCoin ⟨3, 0⟩)),
    .main (.stop .flush), .worker 0, .worker 1, .worker 1, .resume]

theorem someEvents_transparent : (∀ e ∈ someEvents, e.Fits fun _ => 0) ∧
      ∃ s, (State.initial someBase 5).run (fun _ => 0) someCommit someEvents = some s ∧
        s.log.map Prod.snd = [.done, .spent (some CoinsView.someCoin), .coin none,
            .flushed [(⟨1, 0⟩, { coin := {}, dirty := true, fresh := false })]] ∧
        Transparent (fun _ => 0) someCommit someBase 5 s := by
  have hfits : ∀ e ∈ someEvents, e.Fits fun _ => 0 := by
    intro e he
    simp only [someEvents, mem_cons, not_mem_nil, or_false] at he
    rcases he with rfl | rfl | rfl | rfl | rfl | rfl | rfl | rfl | rfl | rfl | rfl | rfl | rfl | rfl
    · show 2 + 2 < 2 ^ 32
      omega
    all_goals trivial
  refine ⟨hfits, _, rfl, rfl, ?_⟩
  exact overlay_transparent (fun _ => 0) someCommit someBase 5 someEvents hfits _ rfl

end Overlay

end Coins

end Quarlcoin
