import Mathlib.Algebra.Order.BigOperators.Group.Finset
import Quarlcoin.CheckQueue.Model
import Quarlcoin.Common.Pool
/-!
# The check queue — the verdict

Whatever the schedule, `Complete` returns what running the checks one by one would. A local
result that is kept from an earlier session never counts: a batch that is run overwrites it
(`ThreadOk.found`), and one is skipped only for an error of its own session
(`ThreadOk.skipped`).
-/

namespace Quarlcoin.CheckQueue

open Phase List Finset Function Option UInt32 Thread

variable {n : ℕ} {T R : Type} {check : T → Option R} {result result' : Option R}
  {added added' : List T} {th : Thread T R} {s s' : State n T R} {t : Option (Fin n)}

/-- The checks a thread has taken and not reported. -/
def Thread.pending (th : Thread T R) : ℕ :=
  if th.phase = working ∨ th.phase = entering then th.nNow else 0

namespace State

/-- The checks that are taken and not reported. -/
def taken (s : State n T R) : ℕ := ∑ t, (s.thread t).pending

/-- The checks that are taken and not run. -/
def unrun (s : State n T R) : Multiset T := ∑ t, ((s.thread t).vChecks : Multiset T)

/-- No error is known: none is published, and none is about to be. -/
def Unfailed (s : State n T R) : Prop :=
  s.result = none ∧
    ∀ t, (s.thread t).phase = entering → (s.thread t).nNow ≠ 0 → (s.thread t).localResult = none

end State

/-- What holds of a thread, at the published result and the checks of the
session. -/
structure ThreadOk (check : T → Option R) (result : Option R) (added : List T)
    (th : Thread T R) : Prop where
  batch : th.phase = working → 0 < th.nNow ∧ th.vChecks.length = th.nNow
  empty : th.phase ≠ working → th.vChecks = []
  skipped : th.phase = working → th.doWork = false → result.isSome
  found : th.phase = entering → th.nNow ≠ 0 → ∀ e, th.localResult = some e →
    result.isSome ∨ ∃ c ∈ added, check c = some e

/-- **A session gave the sequential verdict.** -/
structure Session.Sequential (check : T → Option R) (ses : Session T R) : Prop where
  verdict_none : ses.verdict = none ↔ ∀ c ∈ ses.added, check c = none
  verdict_some : ∀ e, ses.verdict = some e → ∃ c ∈ ses.added, check c = some e
  once : (ses.ran : Multiset T) ≤ ses.added
  all : (∀ c ∈ ses.added, check c = none) → (ses.ran : Multiset T) = ses.added

/-- What holds of the queue, but for the master that sleeps. -/
structure Core (check : T → Option R) (s : State n T R) : Prop where
  threads : ∀ t, ThreadOk check s.result s.added (s.thread t)
  count : s.nTodo.toNat = s.queue.length + s.taken
  bound : s.queue.length + s.taken ≤ s.added.length
  fits : s.added.length < 2 ^ 32
  found : ∀ e, s.result = some e → ∃ c ∈ s.added, check c = some e
  once : (s.queue : Multiset T) + s.unrun + s.ran ≤ s.added
  all : s.Unfailed →
    (s.queue : Multiset T) + s.unrun + s.ran = s.added ∧ ∀ c ∈ s.ran, check c = none
  sessions : ∀ ses ∈ s.sessions, ses.Sequential check

/-- **The invariant** of the queue. -/
structure Inv (check : T → Option R) (s : State n T R) : Prop extends Core check s where
  asleep : (s.thread none).phase = waiting → s.queue = [] ∧ s.nTodo ≠ 0

/-! ## Threads -/

/-- A thread that has nothing to report. -/
structure Thread.Idle (th : Thread T R) : Prop where
  phase : th.phase ≠ working
  empty : th.vChecks = []
  nNow : th.phase = entering → th.nNow = 0

theorem Thread.Idle.pending (h : th.Idle) : th.pending = 0 := by
  rw [Thread.pending]
  split_ifs with hphase
  · exact h.nNow (hphase.resolve_left h.phase)
  · rfl

theorem Thread.Idle.threadOk (h : th.Idle) : ThreadOk check result added th where
  batch hphase := absurd hphase h.phase
  empty _ := h.empty
  skipped hphase := absurd hphase h.phase
  found hphase hnow := absurd (h.nNow hphase) hnow

theorem ThreadOk.idle (h : ThreadOk check result added th) (hworking : th.phase ≠ working)
    (hentering : th.phase ≠ entering) : th.Idle :=
  ⟨hworking, h.empty hworking, fun hphase => absurd hphase hentering⟩

theorem ThreadOk.mono (h : ThreadOk check result added th)
    (hresult : result.isSome → result'.isSome) (hadded : ∀ c ∈ added, c ∈ added') :
    ThreadOk check result' added' th where
  batch := h.batch
  empty := h.empty
  skipped hphase hwork := hresult (h.skipped hphase hwork)
  found hphase hnow e he := by
    rcases h.found hphase hnow e he with hsome | ⟨c, hc, hcheck⟩
    · exact .inl (hresult hsome)
    · exact .inr ⟨c, hadded c hc, hcheck⟩

theorem Thread.pending_wake (th : Thread T R) : th.wake.pending = th.pending := by
  rw [wake]
  split_ifs with hphase
  · simp [pending, hphase]
  · rfl

theorem Thread.vChecks_wake (th : Thread T R) : th.wake.vChecks = th.vChecks := by
  rw [wake]
  split <;> rfl

theorem Thread.phase_wake_ne (th : Thread T R) : th.wake.phase ≠ waiting := by
  rw [wake]
  split
  · simp
  · assumption

theorem ThreadOk.wake (h : ThreadOk check result added th) :
    ThreadOk check result added th.wake := by
  rw [Thread.wake]
  split_ifs with hphase
  · have hidle := h.idle (by simp [hphase]) (by simp [hphase])
    exact Thread.Idle.threadOk ⟨by simp, hidle.empty, by simp⟩
  · exact h

@[simp] theorem State.thread_setThread_self (th : Thread T R) : (s.setThread t th).thread t = th :=
  update_self ..

theorem State.thread_setThread_of_ne (th : Thread T R) {u : Option (Fin n)} (h : u ≠ t) :
    (s.setThread t th).thread u = s.thread u :=
  update_of_ne h ..

theorem State.taken_setThread (th : Thread T R) :
    (s.setThread t th).taken + (s.thread t).pending = s.taken + th.pending :=
  Pool.sum_update s.thread t th pending

theorem State.unrun_setThread (th : Thread T R) :
    (s.setThread t th).unrun + (s.thread t).vChecks = s.unrun + th.vChecks :=
  Pool.sum_update s.thread t th fun th => (th.vChecks : Multiset T)

theorem State.pending_le_taken (s : State n T R) (t : Option (Fin n)) :
    (s.thread t).pending ≤ s.taken :=
  single_le_sum (f := fun t => (s.thread t).pending) (fun _ _ => Nat.zero_le _)
    (mem_univ t)

theorem State.vChecks_le_unrun (s : State n T R) (t : Option (Fin n)) :
    ((s.thread t).vChecks : Multiset T) ≤ s.unrun :=
  single_le_sum (f := fun t => ((s.thread t).vChecks : Multiset T))
    (fun _ _ => Multiset.zero_le _) (mem_univ t)

theorem forall_setThread {P : Thread T R → Prop} (hth : P th) (hrest : ∀ u ≠ t, P (s.thread u)) :
    ∀ u, P ((s.setThread t th).thread u) := by
  intro u
  rcases eq_or_ne u t with rfl | hne
  · rw [State.thread_setThread_self]
    exact hth
  · rw [State.thread_setThread_of_ne th hne]
    exact hrest u hne

/-! ## Steps that change no check -/

theorem State.Unfailed.of_setThread (h : (s.setThread t th).Unfailed)
    (hold : (s.thread t).phase = entering → (s.thread t).nNow ≠ 0 →
      (s.thread t).localResult = none) : s.Unfailed := by
  refine ⟨h.1, fun u => ?_⟩
  rcases eq_or_ne u t with rfl | hne
  · exact hold
  · rw [← State.thread_setThread_of_ne th hne]
    exact h.2 u

theorem State.waiting_of_setThread (hth : th.phase ≠ waiting)
    (h : ((s.setThread t th).thread none).phase = waiting) :
    t ≠ none ∧ (s.thread none).phase = waiting := by
  rcases eq_or_ne none t with rfl | hne
  · exact absurd h hth
  · rw [State.thread_setThread_of_ne th hne] at h
    exact ⟨hne.symm, h⟩

theorem State.setThread_idle (hold : (s.thread t).Idle) (hnew : th.Idle) :
    (s.setThread t th).taken = s.taken ∧ (s.setThread t th).unrun = s.unrun := by
  have htaken := s.taken_setThread (t := t) th
  have hunrun := s.unrun_setThread (t := t) th
  rw [hold.pending, hnew.pending] at htaken
  rw [hold.empty, hnew.empty, add_left_inj] at hunrun
  exact ⟨htaken, hunrun⟩

theorem Core.idle {p : Phase} (h : Core check s) (hphase : (s.thread t).phase = p)
    (hp : p ≠ working ∧ p ≠ entering := by simp) : (s.thread t).Idle :=
  (h.threads t).idle (hphase ▸ hp.1) (hphase ▸ hp.2)

/-- **Checks that only change hands** keep everything. -/
theorem Core.moved (h : Core check s)
    (hsame : s'.result = s.result ∧ s'.added = s.added ∧ s'.nTodo = s.nTodo ∧ s'.ran = s.ran ∧
      s'.sessions = s.sessions) (hthreads : ∀ t, ThreadOk check s.result s.added (s'.thread t))
    (hcount : s'.queue.length + s'.taken = s.queue.length + s.taken)
    (hmoved : (s'.queue : Multiset T) + s'.unrun = s.queue + s.unrun)
    (hun : s'.Unfailed → s.Unfailed) : Core check s' := by
  obtain ⟨hresult, hadded, htodo, hran, hsessions⟩ := hsame
  refine ⟨?_, ?_, ?_, ?_, ?_, ?_, fun hafter => ?_, ?_⟩
  all_goals simp only [hresult, hadded, htodo, hran, hsessions, hcount, hmoved]
  exacts [hthreads, h.count, h.bound, h.fits, h.found, h.once, h.all (hun hafter), h.sessions]

/-- **A thread without checks moves**, to where it has none. -/
theorem Core.setThread (h : Core check s) (hold : (s.thread t).Idle) (hnew : th.Idle) :
    Core check (s.setThread t th) := by
  obtain ⟨htaken, hunrun⟩ := State.setThread_idle hold hnew
  exact h.moved ⟨rfl, rfl, rfl, rfl, rfl⟩ (forall_setThread hnew.threadOk fun u _ => h.threads u)
    (by rw [htaken]; rfl) (by rw [hunrun]; rfl)
    fun hun => hun.of_setThread fun hphase hnow => absurd (hold.nNow hphase) hnow

theorem Inv.counters (h : Inv check s) (nIdle nTotal : ℤ) : Inv check { s with nIdle, nTotal } :=
  { h with }

theorem Inv.setThread (h : Inv check s) (hold : (s.thread t).Idle) (hnew : th.Idle)
    (hsleep : t = none → th.phase = waiting → s.queue = [] ∧ s.nTodo ≠ 0) :
    Inv check (s.setThread t th) where
  toCore := h.toCore.setThread hold hnew
  asleep hphase := by
    rcases eq_or_ne none t with rfl | hne
    · exact hsleep rfl hphase
    · rw [State.thread_setThread_of_ne th hne] at hphase
      exact h.asleep hphase

theorem State.thread_wakeWhere (s : State n T R) (p : Option (Fin n) → Prop) [DecidablePred p]
    (t : Option (Fin n)) :
    (s.wakeWhere p).thread t = if p t then (s.thread t).wake else s.thread t := rfl

/-- **Threads are woken.** -/
theorem Inv.wakeWhere (h : Inv check s) (p : Option (Fin n) → Prop) [DecidablePred p] :
    Inv check (s.wakeWhere p) := by
  have hsame (t : Option (Fin n)) : ((s.wakeWhere p).thread t).pending = (s.thread t).pending ∧
      ((s.wakeWhere p).thread t).vChecks = (s.thread t).vChecks := by
    rw [State.thread_wakeWhere]
    split
    · exact ⟨pending_wake _, vChecks_wake _⟩
    · exact ⟨rfl, rfl⟩
  have htaken : (s.wakeWhere p).taken = s.taken := sum_congr rfl fun t _ => (hsame t).1
  have hunrun : (s.wakeWhere p).unrun = s.unrun := sum_congr rfl fun t _ => congrArg _ (hsame t).2
  refine ⟨h.moved ⟨rfl, rfl, rfl, rfl, rfl⟩ (fun t => ?_) (by rw [htaken]; rfl)
    (by rw [hunrun]; rfl) fun hun => ⟨hun.1, fun t hphase hnow => ?_⟩, fun hphase => ?_⟩
  · rw [State.thread_wakeWhere]
    split
    · exact (h.threads t).wake
    · exact h.threads t
  · have hsame : (s.wakeWhere p).thread t = s.thread t := by
      have hwake : (s.thread t).wake = s.thread t := if_neg (by rw [hphase]; decide)
      rw [State.thread_wakeWhere, hwake, ite_self]
    have hlocal := hun.2 t
    rw [hsame] at hlocal
    exact hlocal hphase hnow
  · rw [State.thread_wakeWhere] at hphase
    split at hphase
    · exact absurd hphase (phase_wake_ne _)
    · exact h.asleep hphase

theorem Inv.init : Inv check (State.init n T R) := by
  have hidle : ∀ t, ((State.init n T R).thread t).Idle := by
    rintro (_ | i) <;> exact ⟨by simp [State.init], rfl, by simp [State.init]⟩
  have htaken : (State.init n T R).taken = 0 := sum_eq_zero fun t _ => (hidle t).pending
  have hunrun : (State.init n T R).unrun = 0 := sum_eq_zero fun t _ => by rw [(hidle t).empty]; rfl
  exact
    { threads := fun t => (hidle t).threadOk
      count := by rw [htaken]; rfl
      bound := by rw [htaken]; exact le_rfl
      fits := by simp [State.init]
      found := fun e he => by cases he
      once := by rw [hunrun]; exact le_rfl
      all := fun _ => ⟨by rw [hunrun]; rfl, fun c hc => by cases hc⟩
      sessions := fun ses hses => by cases hses
      asleep := fun hphase => by cases hphase }

variable (h : Inv check s)
include h

theorem Inv.resume (hphase : (s.thread t).phase = woken) : Inv check (s.resume t) := by
  have hidle := h.idle hphase
  exact (h.counters (s.nIdle - 1) s.nTotal).setThread hidle ⟨by simp, hidle.empty, by simp⟩
    (by simp)

theorem Inv.spurious (hstep : s.spurious t = some s') : Inv check s' := by
  rw [State.spurious] at hstep
  split at hstep
  · rename_i hphase
    obtain rfl := some.inj hstep
    have hidle := h.idle hphase
    refine h.setThread hidle ?_ fun _ hwaiting => absurd hwaiting (phase_wake_ne _)
    rw [wake, if_pos hphase]
    exact ⟨by simp, hidle.empty, by simp⟩
  · cases hstep

theorem Inv.complete (hstep : s.complete = some s') : Inv check s' := by
  rw [State.complete] at hstep
  split at hstep
  · rename_i hphase
    obtain rfl := some.inj hstep
    have hidle := h.idle hphase
    exact h.setThread hidle ⟨by simp, rfl, fun _ => rfl⟩ (by simp)
  · cases hstep

theorem Inv.notify {target : Option (Fin n)} (hstep : s.notify target = some s') :
    Inv check s' := by
  -- the master is not among the threads that are woken
  have hleave : ∀ (p : Option (Fin n) → Prop) [DecidablePred p], ¬ p none →
      (∃ all, (s.thread none).phase = notifying all) →
      Inv check ((s.wakeWhere p).setThread none { s.thread none with phase := outside }) := by
    rintro p _ hp ⟨all, hphase⟩
    have hidle := h.idle hphase
    refine (h.wakeWhere p).setThread ?_ ⟨by simp, hidle.empty, by simp⟩ (by simp)
    rw [State.thread_wakeWhere, if_neg hp]
    exact hidle
  rw [State.notify] at hstep
  split at hstep
  · rename_i hphase
    obtain rfl := some.inj hstep
    exact hleave (· ≠ none) (by simp) ⟨true, hphase⟩
  · rename_i hphase
    split at hstep
    · obtain rfl := some.inj hstep
      exact hleave (fun t => t ≠ none ∧ t = target) (by simp) ⟨false, hphase⟩
    · cases hstep
  · cases hstep

omit h

/-! ## Steps that move checks -/

section

variable {vChecks : List T} {nBatchSize : ℕ}

/-- **Checks are added.** -/
theorem Core.add (h : Core check s) (hfits : (s.added ++ vChecks).length < 2 ^ 32) :
    Core check { s with
      queue := s.queue ++ vChecks
      nTodo := s.nTodo + ofNat vChecks.length
      added := s.added ++ vChecks } := by
  have hcount := h.count
  have hbound := h.bound
  have hlen := hfits
  have hmore : ((s.queue ++ vChecks : List T) : Multiset T) + s.unrun + s.ran =
      (s.queue + s.unrun + s.ran) + vChecks := by
    rw [← Multiset.coe_add]
    abel
  rw [length_append] at hlen
  refine ⟨fun u => (h.threads u).mono id fun c hc => mem_append_left _ hc, ?_, ?_, hfits,
    fun e he => ?_, ?_, fun hun => ?_, h.sessions⟩
  · show (s.nTodo + ofNat vChecks.length).toNat = (s.queue ++ vChecks).length + s.taken
    rw [UInt32.toNat_add, toNat_ofNat', length_append]
    omega
  · show (s.queue ++ vChecks).length + s.taken ≤ (s.added ++ vChecks).length
    rw [length_append, length_append]
    omega
  · obtain ⟨c, hc, hcheck⟩ := h.found e he
    exact ⟨c, mem_append_left _ hc, hcheck⟩
  · show ((s.queue ++ vChecks : List T) : Multiset T) + s.unrun + s.ran ≤
      ((s.added ++ vChecks : List T) : Multiset T)
    rw [hmore]
    exact add_le_add_left h.once _
  · obtain ⟨hall, hran⟩ := h.all hun
    refine ⟨?_, hran⟩
    show ((s.queue ++ vChecks : List T) : Multiset T) + s.unrun + s.ran =
      ((s.added ++ vChecks : List T) : Multiset T)
    rw [hmore, ← Multiset.coe_add s.added, hall]

theorem Inv.add (h : Inv check s) (hstep : s.add vChecks = some s')
    (hfits : s'.added.length < 2 ^ 32) : Inv check s' := by
  rw [State.add] at hstep
  split at hstep
  · rename_i hphase
    split at hstep
    · obtain rfl := some.inj hstep
      exact h
    · obtain rfl := some.inj hstep
      have hidle := h.idle hphase
      exact ⟨(h.toCore.add hfits).setThread hidle ⟨by simp, hidle.empty, by simp⟩,
        fun hwaiting => absurd rfl (State.waiting_of_setThread (by simp) hwaiting).1⟩
  · cases hstep

theorem batch_le (nBatchSize : ℕ) (h : s.queue ≠ []) :
    0 < s.batch nBatchSize ∧ s.batch nBatchSize ≤ s.queue.length := by
  have hpos := length_pos_iff.2 h
  have hdiv : s.queue.length % 2 ^ 32 / (s.nTotal + s.nIdle + 1).toNat ≤ s.queue.length :=
    (Nat.div_le_self _ _).trans (Nat.mod_le _ _)
  rw [State.batch]
  omega

/-- **A batch is taken.** -/
theorem Inv.take (h : Inv check s) (nBatchSize : ℕ) (hphase : (s.thread t).phase = inside)
    (hqueue : s.queue ≠ []) : Inv check (s.take nBatchSize t) := by
  obtain ⟨hpos, hle⟩ := batch_le nBatchSize hqueue
  have hidle := h.idle hphase
  generalize hnow : s.batch nBatchSize = nNow at hpos hle
  generalize hstart : s.queue.length - nNow = start
  let th : Thread T R := { s.thread t with
    phase := working
    nNow
    vChecks := s.queue.drop start
    doWork := s.result.isNone }
  have hs' : s.take nBatchSize t = { s.setThread t th with queue := s.queue.take start } := by
    rw [State.take, hnow, hstart]
    rfl
  have hlen : (s.queue.drop start).length = nNow := by
    rw [length_drop]
    omega
  have hlen' := length_take_of_le (show start ≤ s.queue.length by omega)
  have htaken := s.taken_setThread (t := t) th
  have hunrun := s.unrun_setThread (t := t) th
  rw [hidle.pending, show th.pending = nNow from rfl] at htaken
  rw [hidle.empty] at hunrun
  -- what leaves the queue is in the batch
  have hmoved : ((s.queue.take start : List T) : Multiset T) + (s.setThread t th).unrun =
      s.queue + s.unrun := by
    have hsplit : (s.queue : Multiset T) = (s.queue.take start : List T) + (s.queue.drop start :) := by
      rw [Multiset.coe_add, take_append_drop]
    rw [hsplit, ← add_zero (s.setThread t th).unrun, ← Multiset.coe_nil, hunrun]
    abel
  rw [hs']
  refine ⟨h.moved ⟨rfl, rfl, rfl, rfl, rfl⟩ (forall_setThread ⟨fun _ => ⟨hpos, hlen⟩,
    fun hne => absurd rfl hne, fun _ hwork => ?_, fun hentering => by cases hentering⟩
    fun u _ => h.threads u) ?_ hmoved fun hun => ?_, fun hwaiting => ?_⟩
  · rw [← not_isNone, Bool.not_eq_true']
    exact hwork
  · show (s.queue.take start).length + (s.setThread t th).taken = s.queue.length + s.taken
    omega
  · have hafter : (s.setThread t th).Unfailed := hun
    refine hafter.of_setThread fun hentering => ?_
    rw [hphase] at hentering
    cases hentering
  · have hbefore := (State.waiting_of_setThread (by simp) hwaiting).2
    exact absurd (h.asleep hbefore).1 hqueue

theorem execute_spec (check : T → Option R) (hne : vChecks ≠ []) (localResult : Option R) :
    let r := State.execute check vChecks localResult
    (r.1 : Multiset T) ≤ vChecks ∧ (∀ e, r.2 = some e → ∃ c ∈ vChecks, check c = some e) ∧
    (r.2 = none → r.1 = vChecks ∧ ∀ c ∈ vChecks, check c = none) := by
  induction vChecks generalizing localResult with
  | nil => exact absurd rfl hne
  | cons c vChecks ih =>
    rw [State.execute]
    cases hc : check c with
    | some e =>
      refine ⟨?_, fun e' he' => ⟨c, mem_cons_self, hc.trans he'⟩, fun hnone => by cases hnone⟩
      exact Multiset.coe_le.2 (List.Sublist.subperm (singleton_sublist.2 mem_cons_self))
    | none =>
      rcases eq_or_ne vChecks [] with rfl | hne'
      · exact ⟨le_rfl, fun e he => (by cases he), fun _ => ⟨rfl, by simpa using hc⟩⟩
      obtain ⟨hle, hsome, hnone⟩ := ih hne' none
      refine ⟨?_, fun e he => ?_, fun h => ?_⟩
      · exact Multiset.cons_le_cons c hle
      · obtain ⟨c', hc', hcheck⟩ := hsome e he
        exact ⟨c', mem_cons_of_mem _ hc', hcheck⟩
      · obtain ⟨hall, hsucceed⟩ := hnone h
        exact ⟨by rw [hall], forall_mem_cons.2 ⟨hc, hsucceed⟩⟩

theorem Core.outcome (h : Core check s) (hphase : (s.thread t).phase = working) :
    let th := s.thread t
    let r := if th.doWork then State.execute check th.vChecks th.localResult
      else ([], th.localResult)
    (r.1 : Multiset T) ≤ th.vChecks ∧
    (∀ e, r.2 = some e → s.result.isSome ∨ ∃ c ∈ s.added, check c = some e) ∧
    (s.result = none → r.2 = none → r.1 = th.vChecks ∧ ∀ c ∈ th.vChecks, check c = none) := by
  obtain ⟨hpos, hlen⟩ := (h.threads t).batch hphase
  have hne : (s.thread t).vChecks ≠ [] := ne_nil_of_length_pos (by omega)
  intro th r
  cases hwork : th.doWork with
  | false =>
    have hresult := (h.threads t).skipped hphase hwork
    have hr : r = ([], th.localResult) := if_neg (by simp [hwork])
    rw [hr]
    refine ⟨Multiset.zero_le _, fun _ _ => .inl hresult, fun hnone => ?_⟩
    rw [hnone] at hresult
    cases hresult
  | true =>
    obtain ⟨hle, hsome, hnone⟩ := execute_spec check hne th.localResult
    have hr : r = State.execute check th.vChecks th.localResult := if_pos hwork
    rw [hr]
    refine ⟨hle, fun e he => .inr ?_, fun _ => hnone⟩
    obtain ⟨c, hc, hcheck⟩ := hsome e he
    refine ⟨c, ?_, hcheck⟩
    have hadded : ((s.thread t).vChecks : Multiset T) ≤ s.added :=
      (s.vChecks_le_unrun t).trans ((Multiset.le_add_left _ _).trans
        ((Multiset.le_add_right _ _).trans h.once))
    exact Multiset.mem_coe.1 (Multiset.mem_of_le hadded hc)

/-- **A batch is run**, or skipped. -/
theorem Inv.work (h : Inv check s) (hstep : s.work check t = some s') : Inv check s' := by
  rw [State.work] at hstep
  split at hstep
  · rename_i hphase
    obtain ⟨hran, hfound, hclean⟩ := h.toCore.outcome hphase
    obtain ⟨hpos, -⟩ := (h.threads t).batch hphase
    generalize (if (s.thread t).doWork then
      State.execute check (s.thread t).vChecks (s.thread t).localResult
      else ([], (s.thread t).localResult)) = r at hran hfound hclean hstep
    obtain rfl := some.inj hstep
    let th : Thread T R := { s.thread t with phase := entering, vChecks := [], localResult := r.2 }
    show Inv check { s.setThread t th with ran := s.ran ++ r.1 }
    have htaken : (s.setThread t th).taken = s.taken := by
      have hsum := s.taken_setThread (t := t) th
      have hpending : (s.thread t).pending = th.pending := by simp [pending, hphase, th]
      omega
    have hunrun : (s.setThread t th).unrun + (s.thread t).vChecks = s.unrun := by
      rw [s.unrun_setThread th]
      exact add_zero _
    have honce : (s.queue : Multiset T) + (s.setThread t th).unrun + (s.ran ++ r.1 : List T) ≤
        s.queue + s.unrun + s.ran := by
      rw [← Multiset.coe_add, ← hunrun]
      calc (s.queue : Multiset T) + (s.setThread t th).unrun + (s.ran + r.1)
          ≤ s.queue + (s.setThread t th).unrun + (s.ran + (s.thread t).vChecks) := by gcongr
        _ = s.queue + ((s.setThread t th).unrun + (s.thread t).vChecks) + s.ran := by abel
    have hok : ThreadOk check s.result s.added th :=
      ⟨fun hworking => (by cases hworking), fun _ => rfl, fun hworking => (by cases hworking),
        fun _ _ => hfound⟩
    refine ⟨⟨forall_setThread hok fun u _ => h.threads u, ?_, ?_, h.fits, h.found,
      honce.trans h.once, fun hun => ?_, h.sessions⟩, fun hwaiting => ?_⟩
    · show s.nTodo.toNat = s.queue.length + (s.setThread t th).taken
      rw [htaken]
      exact h.count
    · show s.queue.length + (s.setThread t th).taken ≤ s.added.length
      rw [htaken]
      exact h.bound
    · -- without an error the whole batch was run
      have hafter : (s.setThread t th).Unfailed := hun
      obtain ⟨hall, hran⟩ := h.all (hafter.of_setThread fun hentering => by
        rw [hphase] at hentering
        cases hentering)
      have hlocal := hafter.2 t
      rw [State.thread_setThread_self] at hlocal
      obtain ⟨hbatch, hsucceed⟩ := hclean hafter.1 (hlocal rfl hpos.ne')
      refine ⟨?_, fun c hc => ?_⟩
      · show (s.queue : Multiset T) + (s.setThread t th).unrun + (s.ran ++ r.1 : List T) = s.added
        rw [← hall, ← hunrun, hbatch, ← Multiset.coe_add]
        abel
      · rcases mem_append.1 hc with hc | hc
        · exact hran c hc
        · exact hsucceed c (hbatch ▸ hc)
    · exact h.asleep (State.waiting_of_setThread (by simp) hwaiting).2
  · cases hstep

/-! ## The critical section -/

theorem publish_snd (localResult result : Option R) :
    (publish localResult result).2 = result.or localResult := by
  cases localResult <;> cases result <;> rfl

/-- **A batch is reported.** -/
theorem Core.report (h : Core check s) (hphase : (s.thread t).phase = entering)
    (hnow : (s.thread t).nNow ≠ 0) (localResult : Option R) : Core check ({ s with
      nTodo := s.nTodo - ofNat (s.thread t).nNow
      result := s.result.or (s.thread t).localResult }.setThread t
        { s.thread t with phase := inside, localResult }) := by
  let th : Thread T R := { s.thread t with phase := inside, localResult }
  have hok := h.threads t
  have hidle : th.Idle := ⟨by simp, hok.empty (by simp [hphase]), by simp⟩
  have hpending : (s.thread t).pending = (s.thread t).nNow := if_pos (.inr hphase)
  have htaken : (s.setThread t th).taken + (s.thread t).nNow = s.taken := by
    have hsum := s.taken_setThread (t := t) th
    rw [hidle.pending] at hsum
    omega
  have hunrun : (s.setThread t th).unrun = s.unrun := add_right_cancel (s.unrun_setThread th)
  have hcount := h.count
  have hbound := h.bound
  have hfits := h.fits
  have hstays : s.result.isSome → (s.result.or (s.thread t).localResult).isSome := by
    intro hsome
    rw [isSome_or, hsome, Bool.true_or]
  refine ⟨forall_setThread hidle.threadOk fun u _ => (h.threads u).mono hstays fun _ => id,
    ?_, ?_, h.fits, fun e he => ?_, ?_, fun hun => ?_, h.sessions⟩
  · show (s.nTodo - ofNat (s.thread t).nNow).toNat = s.queue.length + (s.setThread t th).taken
    rw [UInt32.toNat_sub, toNat_ofNat']
    omega
  · show s.queue.length + (s.setThread t th).taken ≤ s.added.length
    omega
  · rcases or_eq_some_iff.1 he with hresult | ⟨hnone, hlocal⟩
    · exact h.found e hresult
    · -- nothing was published before, so the local result is of this session
      rcases hok.found hphase hnow e hlocal with hsome | hadded
      · rw [hnone] at hsome
        cases hsome
      · exact hadded
  · show (s.queue : Multiset T) + (s.setThread t th).unrun + s.ran ≤ s.added
    rw [hunrun]
    exact h.once
  · show (s.queue : Multiset T) + (s.setThread t th).unrun + s.ran = s.added ∧ _
    rw [hunrun]
    obtain ⟨hresult, hlocal⟩ := or_eq_none_iff.1 hun.1
    refine h.all ⟨hresult, fun u hentering hnow => ?_⟩
    rcases eq_or_ne u t with rfl | hne
    · exact hlocal
    · have hrest := hun.2 u
      rw [State.thread_setThread_of_ne _ hne] at hrest
      exact hrest hentering hnow

/-- **The master is notified**, and does not sleep any longer. -/
theorem Core.notifyMaster (h : Core check s) : Inv check s.notifyMaster := by
  refine ⟨?_, fun hwaiting => ?_⟩
  · rw [State.notifyMaster, wake]
    split_ifs with hphase
    · have hidle := h.idle hphase
      exact h.setThread hidle ⟨by simp, hidle.empty, by simp⟩
    · rw [State.setThread, update_eq_self]
      exact h
  · exact absurd hwaiting (phase_wake_ne _)

/-- **The clean-up** ends in the critical section. -/
theorem Inv.cleanUp (h : Inv check s) (hphase : (s.thread t).phase = entering) :
    Inv check (s.cleanUp t) ∧ ((s.cleanUp t).thread t).phase = inside := by
  rw [State.cleanUp]
  split_ifs with hnow
  · have hcore := h.toCore.report hphase hnow
      (publish (s.thread t).localResult s.result).1
    rw [← publish_snd] at hcore
    dsimp only
    split_ifs with hlast
    · refine ⟨hcore.notifyMaster, ?_⟩
      rw [State.notifyMaster, State.thread_setThread_of_ne _ hlast.2, State.thread_setThread_self]
    · refine ⟨⟨hcore, fun hwaiting => ?_⟩, by rw [State.thread_setThread_self]⟩
      obtain ⟨hne, hbefore⟩ := State.waiting_of_setThread (by simp) hwaiting
      exact ⟨(h.asleep hbefore).1, fun hzero => hlast ⟨hzero, hne⟩⟩
  · have hidle : (s.thread t).Idle :=
      ⟨by simp [hphase], (h.threads t).empty (by simp [hphase]), fun _ => not_not.1 hnow⟩
    refine ⟨(h.counters s.nIdle (s.nTotal + 1)).setThread hidle ⟨by simp, hidle.empty, by simp⟩
      (by simp), by rw [State.thread_setThread_self]⟩

theorem Inv.sleep (h : Inv check s) (hphase : (s.thread t).phase = inside) (hqueue : s.queue = [])
    (hmaster : ¬ (t = none ∧ s.nTodo = 0)) : Inv check (s.sleep t) := by
  have hidle := h.idle hphase
  refine (h.counters (s.nIdle + 1) s.nTotal).setThread hidle ⟨by simp, hidle.empty, by simp⟩ ?_
  exact fun hnone _ => ⟨hqueue, fun hzero => hmaster ⟨hnone, hzero⟩⟩

/-- **`Complete` returns the sequential verdict.** -/
theorem Core.sequential (h : Core check s) (hqueue : s.queue = []) (hunrun : s.unrun = 0)
    (htaken : s.taken = 0) : (Session.mk s.added s.ran s.result).Sequential check := by
  have honce := h.once
  rw [hqueue, hunrun] at honce
  have hclean : s.result = none →
      (s.ran : Multiset T) = s.added ∧ ∀ c ∈ s.added, check c = none := by
    intro hnone
    have hun : s.Unfailed := by
      refine ⟨hnone, fun t hphase hnow => absurd ?_ hnow⟩
      have hle := s.pending_le_taken t
      rw [pending, if_pos (.inr hphase)] at hle
      omega
    obtain ⟨hall, hran⟩ := h.all hun
    rw [hqueue, hunrun, Multiset.coe_nil, zero_add, zero_add] at hall
    refine ⟨hall, fun c hc => hran c ?_⟩
    rw [← Multiset.mem_coe, hall]
    exact hc
  have hsome : ∀ e, s.result = some e → ¬ ∀ c ∈ s.added, check c = none := by
    intro e he hall
    obtain ⟨c, hc, hcheck⟩ := h.found e he
    rw [hall c hc] at hcheck
    cases hcheck
  refine ⟨⟨fun hnone => (hclean hnone).2, fun hall => ?_⟩, h.found, honce, fun hall => ?_⟩
  · cases hresult : s.result with
    | none => rfl
    | some e => exact absurd hall (hsome e hresult)
  · cases hresult : s.result with
    | none => exact (hclean hresult).1
    | some e => exact absurd hall (hsome e hresult)

variable (h : Inv check s)
include h

theorem Inv.finish (hqueue : s.queue = []) (hzero : s.nTodo = 0) : Inv check s.finish := by
  have hcount := h.count
  rw [hzero, hqueue, UInt32.toNat_zero, length_nil, zero_add] at hcount
  -- no thread has checks to report
  have hidle : ∀ t, (s.thread t).Idle := by
    intro t
    have hle := s.pending_le_taken t
    have hworking : (s.thread t).phase ≠ working := by
      intro hphase
      have hpos := ((h.threads t).batch hphase).1
      rw [pending, if_pos (.inl hphase)] at hle
      omega
    refine ⟨hworking, (h.threads t).empty hworking, fun hphase => ?_⟩
    rw [pending, if_pos (.inr hphase)] at hle
    omega
  have hunrun : s.unrun = 0 := sum_eq_zero fun t _ => by rw [(hidle t).empty]; rfl
  let th : Thread T R := { s.thread none with phase := outside }
  have hth : th.Idle := ⟨by simp, (hidle none).empty, by simp⟩
  obtain ⟨htaken', hunrun'⟩ := State.setThread_idle (hidle none) hth
  refine ⟨⟨forall_setThread hth.threadOk fun u _ => (hidle u).threadOk, ?_, ?_,
    show 0 < 2 ^ 32 by norm_num, fun e he => (by cases he), ?_, fun _ => ?_, ?_⟩,
    fun hwaiting => ?_⟩
  · show s.nTodo.toNat = s.queue.length + (s.setThread none th).taken
    rw [hzero, hqueue, htaken', ← hcount]
    rfl
  · show s.queue.length + (s.setThread none th).taken ≤ 0
    rw [hqueue, htaken', ← hcount]
    exact le_rfl
  · show (s.queue : Multiset T) + (s.setThread none th).unrun + 0 ≤ 0
    rw [hqueue, hunrun', hunrun]
    exact le_rfl
  · refine ⟨?_, fun c hc => (by cases hc)⟩
    show (s.queue : Multiset T) + (s.setThread none th).unrun + 0 = 0
    rw [hqueue, hunrun', hunrun]
    rfl
  · intro ses hses
    rcases mem_append.1 hses with hold | hnew
    · exact h.sessions ses hold
    · rw [List.mem_singleton.1 hnew]
      exact h.toCore.sequential hqueue hunrun hcount.symm
  · cases hwaiting

theorem Inv.proceed (nBatchSize : ℕ) (hphase : (s.thread t).phase = inside) :
    Inv check (s.proceed nBatchSize t) := by
  rw [State.proceed]
  split
  · rename_i hempty
    have hqueue := isEmpty_iff.1 hempty
    split_ifs with hmaster
    · obtain ⟨rfl, hzero⟩ := hmaster
      exact h.finish hqueue hzero
    · exact h.sleep hphase hqueue hmaster
  · rename_i hempty
    exact h.take nBatchSize hphase fun hqueue => hempty (isEmpty_iff.2 hqueue)

/-- **A critical section of the loop.** -/
theorem Inv.critical (hstep : s.critical nBatchSize t = some s') : Inv check s' := by
  rw [State.critical] at hstep
  split at hstep
  · rename_i hphase
    obtain rfl := some.inj hstep
    obtain ⟨hclean, hinside⟩ := h.cleanUp hphase
    exact hclean.proceed nBatchSize hinside
  · rename_i hphase
    obtain rfl := some.inj hstep
    exact (h.resume hphase).proceed nBatchSize (by rw [State.resume, State.thread_setThread_self])
  · cases hstep

omit h

/-! ## Runs -/

/-- **The step lemma.** -/
theorem Inv.step {e : Event n T} (h : Inv check s) (hstep : s.step check nBatchSize e = some s')
    (hfits : s'.added.length < 2 ^ 32) : Inv check s' := by
  cases e with
  | add vChecks => exact h.add hstep hfits
  | notify target => exact h.notify hstep
  | complete => exact h.complete hstep
  | critical t => exact h.critical hstep
  | work t => exact h.work hstep
  | spurious t => exact h.spurious hstep

/-- **The run lemma.** -/
theorem Reachable.inv (h : Reachable check nBatchSize s) : Inv check s := by
  induction h with
  | init => exact Inv.init
  | step _ hstep hfits ih => exact ih.step hstep hfits

end

/-- **Parallel checking gives the sequential verdict.** Each session that `Complete` ended
returned nothing exactly if all its checks succeed, and else an error of one of them; `nTodo`
counts the checks queued or taken; and while the master waits, a worker has a batch to
report. -/
theorem checkQueue_sequential (check : T → Option R) (nBatchSize : ℕ) (s : State n T R)
    (h : Reachable check nBatchSize s) :
    (∀ ses ∈ s.sessions, ses.Sequential check) ∧ (s.ran : Multiset T) ≤ s.added ∧
    s.nTodo.toNat = s.queue.length + s.taken ∧ ((s.thread none).phase = waiting →
      s.queue = [] ∧ s.nTodo ≠ 0 ∧ ∃ i, 0 < (s.thread (some i)).pending) ∧
    ¬ ((s.queue ≠ [] ∨ s.nTodo = 0) ∧ ∀ t, (s.thread t).phase = waiting) := by
  have hinv := h.inv
  refine ⟨hinv.sessions, (Multiset.le_add_left _ _).trans hinv.once, hinv.count,
    fun hwaiting => ?_, fun ⟨hqueue, hall⟩ => ?_⟩
  · obtain ⟨hqueue, htodo⟩ := hinv.asleep hwaiting
    refine ⟨hqueue, htodo, ?_⟩
    have hcount := hinv.count
    rw [hqueue, length_nil, zero_add] at hcount
    have hpos : s.taken ≠ 0 := fun hzero => htodo (UInt32.toNat_inj.1 (hcount.trans hzero))
    obtain ⟨t, -, ht⟩ := exists_ne_zero_of_sum_ne_zero hpos
    cases t with
    | none => exact absurd (by simp [pending, hwaiting]) ht
    | some i => exact ⟨i, Nat.pos_of_ne_zero ht⟩
  · obtain ⟨hempty, htodo⟩ := hinv.asleep (hall none)
    rcases hqueue with hne | hzero
    · exact hne hempty
    · exact htodo hzero

/-! ### Runs -/

/-- A check that fails with its own number, unless that is zero. -/
def nonZero (c : ℕ) : Option ℕ := if c = 0 then none else some c

/-- The worker takes the check that fails; the master runs the other one, and waits for the
report. -/
theorem checkQueue_shared : ∃ s : State 1 ℕ ℕ, Reachable nonZero 128 s ∧
      (s.sessions.map fun ses => (ses.added, ses.verdict)) = [([0, 3], some 3)] ∧
      ∀ ses ∈ s.sessions, ses.Sequential nonZero := by
  have h₀ : Reachable nonZero 128 (State.init 1 ℕ ℕ) := .init
  have h₁ := h₀.step (e := .critical (some 0)) rfl (by decide)
  have h₂ := h₁.step (e := .add [0, 3]) rfl (by decide)
  have h₃ := h₂.step (e := .notify none) rfl (by decide)
  have h₄ := h₃.step (e := .critical (some 0)) rfl (by decide)
  have h₅ := h₄.step (e := .complete) rfl (by decide)
  have h₆ := h₅.step (e := .critical none) rfl (by decide)
  have h₇ := h₆.step (e := .work none) rfl (by decide)
  have h₈ := h₇.step (e := .critical none) rfl (by decide)
  have h₉ := h₈.step (e := .work (some 0)) rfl (by decide)
  have h₁₀ := h₉.step (e := .critical (some 0)) rfl (by decide)
  have h₁₁ := h₁₀.step (e := .critical none) rfl (by decide)
  exact ⟨_, h₁₁, rfl, (checkQueue_sequential nonZero 128 _ h₁₁).1⟩

theorem add_init (vChecks : List ℕ) (hne : vChecks ≠ []) :
    ∃ s : State 1 ℕ ℕ, (State.init 1 ℕ ℕ).step nonZero 128 (.add vChecks) = some s ∧
      s.nTodo = 0 + ofNat vChecks.length ∧ s.queue = vChecks := by
  have hphase : ((State.init 1 ℕ ℕ).thread none).phase = outside := rfl
  have hempty : ¬ vChecks.isEmpty := fun h => hne (isEmpty_iff.1 h)
  refine ⟨_, by rw [State.step, State.add, if_pos hphase, if_neg hempty], rfl, rfl⟩

/-- As many checks as a number of 32 bits does not count: `nTodo` is zero. -/
theorem checkQueue_overflow : ∃ s : State 1 ℕ ℕ,
      (State.init 1 ℕ ℕ).step nonZero 128 (.add (List.replicate (2 ^ 32) 0)) = some s ∧
      s.nTodo.toNat ≠ s.queue.length + s.taken := by
  have hlen : (replicate (2 ^ 32) 0).length = 2 ^ 32 := length_replicate
  generalize replicate (2 ^ 32) 0 = vChecks at hlen
  have hne : vChecks ≠ [] := ne_nil_of_length_pos (by omega)
  obtain ⟨s, hstep, htodo, hqueue⟩ := add_init vChecks hne
  refine ⟨s, hstep, ?_⟩
  rw [htodo, hqueue, UInt32.zero_add, UInt32.toNat_ofNat']
  omega

end Quarlcoin.CheckQueue
