import Mathlib.Algebra.BigOperators.Fin
/-!
# The check queue — the model

`checkqueue.h`: a master adds checks to a queue and joins the workers that take them in
batches. A run is any sequence of the critical sections of `Loop` and `Add`, of batches that
are run, and of notifications and wake-ups.

The destructor is left out. `added`, `ran` and `sessions` are no members of the class: they
record what a run was asked to do and did.
-/

namespace Quarlcoin.CheckQueue

/-- Where a thread is. -/
inductive Phase where
  /-- The master, not in `Loop`. -/
  | outside
  /-- The master, about to notify one worker or all of the checks it added. -/
  | notifying (all : Bool)
  /-- At the top of the loop, where it wants the mutex. -/
  | entering
  /-- In its critical section. -/
  | inside
  /-- In `cond.wait`. -/
  | waiting
  /-- Awake, where it wants the mutex again. -/
  | woken
  /-- With a batch. -/
  | working
  deriving DecidableEq

/-- A thread, with the variables of its `Loop`. -/
structure Thread (T R : Type) where
  phase : Phase
  nNow : ℕ := 0
  vChecks : List T := []
  doWork : Bool := false
  localResult : Option R := none

/-- What a session was asked, did and returned. -/
structure Session (T R : Type) where
  added : List T
  ran : List T
  verdict : Option R

/-- The queue and its threads: the master, which is `none`, and `n` workers. -/
structure State (n : ℕ) (T R : Type) where
  queue : List T := []
  nIdle : ℤ := 0
  nTotal : ℤ := 0
  result : Option R := none
  nTodo : UInt32 := 0
  thread : Option (Fin n) → Thread T R
  added : List T := []
  ran : List T := []
  sessions : List (Session T R) := []

/-- A queue whose workers have just been started. -/
def State.init (n : ℕ) (T R : Type) : State n T R where
  thread
    | none => { phase := .outside }
    | some _ => { phase := .entering }

section

variable {n : ℕ} {T R : Type}

def Thread.wake (th : Thread T R) : Thread T R :=
  if th.phase = .waiting then { th with phase := .woken } else th

/-- The local result is published unless there is one already. -/
def publish (localResult result : Option R) : Option R × Option R :=
  if localResult.isSome ∧ result.isNone then (result, localResult) else (localResult, result)

namespace State

variable (s : State n T R) (t : Option (Fin n))

def setThread (th : Thread T R) : State n T R :=
  { s with thread := Function.update s.thread t th }

def wakeWhere (p : Option (Fin n) → Prop) [DecidablePred p] : State n T R :=
  { s with thread := fun t => if p t then (s.thread t).wake else s.thread t }

def notifyMaster : State n T R := s.setThread none (s.thread none).wake

/-- The clean-up of the loop run before, in the critical section of `t`. -/
def cleanUp : State n T R :=
  let th := s.thread t
  if th.nNow ≠ 0 then
    let (localResult, result) := publish th.localResult s.result
    let nTodo := s.nTodo - UInt32.ofNat th.nNow
    let s := { s with nTodo, result }.setThread t { th with phase := .inside, localResult }
    if nTodo = 0 ∧ t ≠ none then s.notifyMaster else s
  else { s with nTotal := s.nTotal + 1 }.setThread t { th with phase := .inside }

/-- The way back from `cond.wait`. -/
def resume : State n T R :=
  { s with nIdle := s.nIdle - 1 }.setThread t { s.thread t with phase := .inside }

def finish : State n T R :=
  let session : Session T R := ⟨s.added, s.ran, s.result⟩
  { s with
    nTotal := s.nTotal - 1
    result := none
    added := []
    ran := []
    sessions := s.sessions ++ [session] }.setThread none
      { s.thread none with phase := .outside }

def sleep : State n T R :=
  { s with nIdle := s.nIdle + 1 }.setThread t { s.thread t with phase := .waiting }

variable (nBatchSize : ℕ)

/-- How many checks a thread takes. -/
def batch : ℕ :=
  max 1 (min nBatchSize (s.queue.length % 2 ^ 32 / (s.nTotal + s.nIdle + 1).toNat))

/-- `t` takes a batch from the end of the queue. -/
def take (t : Option (Fin n)) : State n T R :=
  let nNow := s.batch nBatchSize
  let start := s.queue.length - nNow
  { s with queue := s.queue.take start }.setThread t
    { s.thread t with
      phase := .working
      nNow
      vChecks := s.queue.drop start
      doWork := s.result.isNone }

/-- The rest of the critical section, from the `while` on. -/
def proceed (t : Option (Fin n)) : State n T R :=
  if s.queue.isEmpty then
    if t = none ∧ s.nTodo = 0 then s.finish else s.sleep t
  else s.take nBatchSize t

/-- A critical section of `Loop`. -/
def critical (t : Option (Fin n)) : Option (State n T R) :=
  match (s.thread t).phase with
  | .entering => some ((s.cleanUp t).proceed nBatchSize t)
  | .woken => some ((s.resume t).proceed nBatchSize t)
  | _ => none

/-- The loop over the batch: the checks that are run, and what is left in
`local_result`. -/
def execute (check : T → Option R) : List T → Option R → List T × Option R
  | [], localResult => ([], localResult)
  | c :: vChecks, _ =>
    match check c with
    | some e => ([c], some e)
    | none => (c :: (execute check vChecks none).1, (execute check vChecks none).2)

def work (check : T → Option R) (t : Option (Fin n)) : Option (State n T R) :=
  let th := s.thread t
  if th.phase = .working then
    let r := if th.doWork then execute check th.vChecks th.localResult else ([], th.localResult)
    some ({ s with ran := s.ran ++ r.1 }.setThread t
      { th with phase := .entering, vChecks := [], localResult := r.2 })
  else none

/-- The critical section of `Add`. -/
def add (vChecks : List T) : Option (State n T R) :=
  if (s.thread none).phase = .outside then
    if vChecks.isEmpty then some s
    else
      some ({ s with
        queue := s.queue ++ vChecks
        nTodo := s.nTodo + UInt32.ofNat vChecks.length
        added := s.added ++ vChecks }.setThread none
          { s.thread none with phase := .notifying (vChecks.length ≠ 1) })
  else none

/-- The end of `Add`: `notify_all`, or `notify_one`, which wakes `target`, a worker that waits if
one does. -/
def notify (target : Option (Fin n)) : Option (State n T R) :=
  match (s.thread none).phase with
  | .notifying true =>
    some ((s.wakeWhere (· ≠ none)).setThread none { s.thread none with phase := .outside })
  | .notifying false =>
    if (∃ i, target = some i ∧ (s.thread (some i)).phase = .waiting) ∨
        (target = none ∧ ∀ i, (s.thread (some i)).phase ≠ .waiting) then
      some ((s.wakeWhere fun t => t ≠ none ∧ t = target).setThread none
        { s.thread none with phase := .outside })
    else none
  | _ => none

def complete : Option (State n T R) :=
  if (s.thread none).phase = .outside then some (s.setThread none { phase := .entering }) else none

/-- A wait ends without a notification. -/
def spurious : Option (State n T R) :=
  if (s.thread t).phase = .waiting then some (s.setThread t (s.thread t).wake) else none

end State

/-- What can happen next. -/
inductive Event (n : ℕ) (T : Type) where
  | add (vChecks : List T)
  | notify (target : Option (Fin n))
  | complete
  | critical (t : Option (Fin n))
  | work (t : Option (Fin n))
  | spurious (t : Option (Fin n))

def State.step (check : T → Option R) (nBatchSize : ℕ) (s : State n T R) :
    Event n T → Option (State n T R)
  | .add vChecks => s.add vChecks
  | .notify target => s.notify target
  | .complete => s.complete
  | .critical t => s.critical nBatchSize t
  | .work t => s.work check t
  | .spurious t => s.spurious t

/-- The states of the runs in which no session has `2 ^ 32` checks or more. -/
inductive Reachable (check : T → Option R) (nBatchSize : ℕ) : State n T R → Prop
  | init : Reachable check nBatchSize (State.init n T R)
  | step {s s' : State n T R} {e : Event n T} : Reachable check nBatchSize s →
      s.step check nBatchSize e = some s' → s'.added.length < 2 ^ 32 →
      Reachable check nBatchSize s'

end

end Quarlcoin.CheckQueue
