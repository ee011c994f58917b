import Mathlib.Tactic.Ring
import Quarlcoin.Coins.Refinement
/-!
# The prefetching overlay — the model

`CoinsViewOverlay`: a cache used while a block is connected, for which worker threads look
up the coins the block spends. A worker claims a slot of the queue, looks the coin up and
marks the slot ready; the main thread takes the slot at the tail if that is the one it
needs.

The threads are a transition system; `none` means that a thread cannot move. The view below
is a map, and only a flush changes it. `log` and `claims` record what was done.
-/

namespace Quarlcoin

open Arith

namespace Coins

namespace Overlay

/-- The lookups that fetch from the view below what the cache does not have. -/
inductive FetchOp where
  | getCoin (o : OutPoint)
  | accessCoin (o : OutPoint)
  | haveCoin (o : OutPoint)
  | spendCoin (o : OutPoint)

def FetchOp.outpoint : FetchOp → OutPoint
  | .getCoin o | .accessCoin o | .haveCoin o | .spendCoin o => o

/-- The operations that stop the fetching first. -/
inductive StopOp where
  | flush
  | reset

/-- What the main thread may do. `startFetching` has the block, the number of workers, and whether
the pool takes the tasks. -/
inductive MainOp where
  | fetch (op : FetchOp)
  | addCoin (o : OutPoint) (coin : Coin) (possibleOverwrite : Bool)
  | peekCoin (o : OutPoint)
  | uncache (o : OutPoint)
  | setBestBlock (hash : Uint256)
  | startFetching (vtx : List Transaction) (workersCount : ℕ) (submitted : Bool)
  | stop (op : StopOp)

/-- What it gets back; from a flush, the entries handed to the view below. -/
inductive Result where
  | done
  | coin (found : Option Coin)
  | accessed (found : Coin)
  | present (found : Bool)
  | spent (moved : Option Coin)
  | flushed (entries : List (OutPoint × CoinsCacheEntry))
  | fault (f : Fault)

/-! ## The operations of a cache, given the answer of the view below -/

variable (c : CoinsViewCache)

/-- A lookup on a cache, where the view below would answer `answer`. -/
def runFetch (answer : Option Coin) : FetchOp → CoinsViewCache × Result
  | .getCoin o =>
    match c.fetchCoin o () (.ok ((), answer)) with
    | .error f => (c, .fault f)
    | .ok (c, _, it) => (c, .coin (it.bind CoinsCacheEntry.value))
  | .accessCoin o =>
    match c.fetchCoin o () (.ok ((), answer)) with
    | .error f => (c, .fault f)
    | .ok (c, _, it) => (c, .accessed ((it.map CoinsCacheEntry.coin).getD {}))
  | .haveCoin o =>
    match c.fetchCoin o () (.ok ((), answer)) with
    | .error f => (c, .fault f)
    | .ok (c, _, it) => (c, .present (it.any fun e => !e.coin.isSpent))
  | .spendCoin o =>
    match c.spendCoin o () (.ok ((), answer)) with
    | .error f => (c, .fault f)
    | .ok (c, _, moved) => (c, .spent moved)

/-- The entries a cursor over the cache goes through. -/
def flaggedEntries : List (OutPoint × CoinsCacheEntry) :=
  c.flagged.filterMap fun o => (c.find o).map fun e => (o, e)

/-- The cache after `CCoinsViewCache::Flush`: the count is taken down, then the map is cleared. -/
def afterFlush : CoinsViewCache :=
  { c.clear with
    dirtyCount := (flaggedEntries c).foldl (fun n p => trySub n p.2.dirty.toNat) c.dirtyCount
    cachedCoinsUsage := 0 }

/-- How the coins of the view below take a flush. -/
abbrev Commit : Type := CoinMap → List (OutPoint × CoinsCacheEntry) → CoinMap

/-- A cache, and the coins and the best block of the view below. -/
structure Plain where
  cache : CoinsViewCache := {}
  base : CoinMap
  baseHash : Uint256

section

variable (commit : Commit) (p : Plain)

def runStop : StopOp → Plain × Result
  | .flush =>
    ({ cache := afterFlush p.cache
       base := commit p.base (flaggedEntries p.cache)
       baseHash := p.cache.blockHash }, .flushed (flaggedEntries p.cache))
  | .reset => ({ p with cache := p.cache.reset }, .done)

/-- An operation that needs nothing from the view below but a coin. -/
def runLocal (c : CoinsViewCache) (base : CoinMap) : MainOp → CoinsViewCache × Result
  | .addCoin o coin possibleOverwrite =>
    match c.addCoin o coin possibleOverwrite with
    | .error f => (c, .fault f)
    | .ok c => (c, .done)
  | .peekCoin o => (c, .coin (valueOver (c.find o) (base o)))
  | .uncache o => (c.uncache o, .done)
  | .setBestBlock hash => (c.setBestBlock hash, .done)
  | .fetch _ | .startFetching .. | .stop _ => (c, .done)

/-- **A plain `CCoinsViewCache`** over the same map. -/
def plainStep : MainOp → Plain × Result
  | .fetch op =>
    ({ p with cache := (runFetch p.cache (p.base op.outpoint) op).1 },
      (runFetch p.cache (p.base op.outpoint) op).2)
  | .stop op => runStop commit p op
  | op => ({ p with cache := (runLocal p.cache p.base op).1 }, (runLocal p.cache p.base op).2)

end

/-! ## The threads -/

structure InputToFetch where
  outpoint : OutPoint
  coin : Option Coin := none
  ready : Bool := false

/-- Where a worker's task is in `while (ProcessInput()) {}`. -/
inductive Worker where
  /-- About to claim an index. -/
  | running
  /-- It has claimed this one. -/
  | claimed (i : ℕ)
  /-- It has stored the coin there. -/
  | fetched (i : ℕ)
  /-- The task has returned. -/
  | finished
  deriving DecidableEq

def Worker.index : Worker → Option ℕ
  | .claimed i | .fetched i => some i
  | .running | .finished => none

/-- Where the main thread is. -/
inductive Main where
  | idle
  /-- In `FetchCoinFromBase`, waiting for slot `i` to be ready. -/
  | awaiting (i : ℕ) (op : FetchOp)
  /-- In `StopFetching`, waiting for the tasks to return. -/
  | stopping (op : StopOp)

/-- An assertion that failed, which ends the program. -/
inductive Abort where
  | cache (f : Fault)
  /-- `StartFetching` asserts that nothing is being fetched. -/
  | alreadyFetching
  /-- `StopFetching` asserts that nothing is left in the queue. -/
  | queueNotEmpty
  /-- `ProcessInput` asserts that the slot was not ready. -/
  | slotReadyTwice
  /-- An access outside the queue. -/
  | outOfRange

/-- `CoinsViewOverlay`, with the tasks it has submitted. -/
structure State extends Plain where
  inputs : List InputToFetch := []
  head : ℕ := 0
  tail : ℕ := 0
  workers : List Worker := []
  main : Main := .idle
  aborted : Option Abort := none
  claims : List ℕ := []
  log : List (MainOp × Result) := []

/-- An event: who moves. -/
inductive Event where
  | main (op : MainOp)
  | resume
  | worker (k : ℕ)

/-- The assertions of the cache; a `logic_error` is an exception instead. -/
def Abort.ofResult : Result → Option Abort
  | .fault .overwroteUnspentCoin => none
  | .fault f => some (.cache f)
  | _ => none

namespace State

variable (s : State)

def complete (op : MainOp) (r : CoinsViewCache × Result) : State :=
  { s with
    cache := r.1
    main := .idle
    aborted := Abort.ofResult r.2
    log := s.log ++ [(op, r.2)] }

/-- A move of worker `k`, in `ProcessInput`. The counters have 32 bits. -/
def workerStep (k : ℕ) : Option State :=
  match s.workers[k]? with
  | none | some .finished => none
  | some .running =>
    if s.head ≥ s.inputs.length then
      some { s with head := (s.head + 1) % 2 ^ 32, workers := s.workers.set k .finished }
    else
      some { s with
        head := (s.head + 1) % 2 ^ 32
        workers := s.workers.set k (.claimed s.head)
        claims := s.claims ++ [s.head] }
  | some (.claimed i) =>
    match s.inputs[i]? with
    | none => some { s with aborted := some .outOfRange }
    | some input =>
      some { s with
        inputs := s.inputs.set i { input with coin := s.base input.outpoint }
        workers := s.workers.set k (.fetched i) }
  | some (.fetched i) =>
    match s.inputs[i]? with
    | none => some { s with aborted := some .outOfRange }
    | some input =>
      if input.ready then some { s with aborted := some .slotReadyTwice }
      else
        some { s with
          inputs := s.inputs.set i { input with ready := true }
          workers := s.workers.set k .running }

variable (getHash : Transaction → Uint256) (commit : Commit)

/-- The outpoints `StartFetching` queues: those of all inputs that do not spend an earlier
transaction of the block. -/
def queued : List Transaction → List Uint256 → List OutPoint
  | [], _ => []
  | tx :: rest, earlierTxids =>
    ((tx.vin.map TxIn.prevout).filter fun o => !earlierTxids.contains o.hash) ++
      queued rest (getHash tx :: earlierTxids)

def enqueue (outpoints : List OutPoint) (workersCount : ℕ) : State :=
  { s with
    inputs := outpoints.map fun outpoint => { outpoint }
    workers := List.replicate workersCount .running
    claims := [] }

def clearQueue : State := { s with workers := [], inputs := [], head := 0, tail := 0, claims := [] }

def startFetching (vtx : List Transaction) (workersCount : ℕ) (submitted : Bool) : State :=
  let op := MainOp.startFetching vtx workersCount submitted
  if s.workers.isEmpty && s.inputs.isEmpty && s.head == 0 && s.tail == 0 then
    let outpoints := queued getHash (vtx.drop 1) []
    -- a pool that takes no tasks leaves the queue as it was
    if workersCount = 0 || outpoints.isEmpty || !submitted then s.complete op (s.cache, .done)
    else (s.enqueue outpoints workersCount).complete op (s.cache, .done)
  else { s with aborted := some .alreadyFetching }

/-- `FetchCoinFromBase` takes the slot at the tail if it is for this outpoint. -/
def fetchFromBase (op : FetchOp) : State :=
  match s.inputs[s.tail]? with
  | some input =>
    if input.outpoint = op.outpoint then
      { s with tail := (s.tail + 1) % 2 ^ 32, main := .awaiting s.tail op }
    else s.complete (.fetch op) (runFetch s.cache (s.base op.outpoint) op)
  | none => s.complete (.fetch op) (runFetch s.cache (s.base op.outpoint) op)

/-- `Flush` warns if not every input was consumed, and asks the best block for the message. -/
def warnUnconsumed : StopOp → CoinsViewCache
  | .flush =>
    if s.tail ≠ s.inputs.length ∧ s.cache.blockHash = 0 then s.cache.setBestBlock s.baseHash
    else s.cache
  | .reset => s.cache

def finishStop (op : StopOp) : State :=
  let r := runStop commit s.toPlain op
  { s with base := r.1.base, baseHash := r.1.baseHash }.complete (.stop op) (r.1.cache, r.2)

/-- `Flush` or `Reset` up to the wait of `StopFetching`. -/
def beginStop (op : StopOp) : State :=
  let s := { s with cache := s.warnUnconsumed op }
  if s.workers.isEmpty then
    if s.inputs.isEmpty && s.head == 0 && s.tail == 0 then s.finishStop commit op
    else { s with aborted := some .queueNotEmpty }
  else { s with head := s.inputs.length % 2 ^ 32, main := .stopping op }

def mainStep (op : MainOp) : Option State :=
  match s.main with
  | .idle =>
    match op with
    | .fetch op =>
      match s.cache.find op.outpoint with
      | some _ => some (s.complete (.fetch op) (runFetch s.cache none op))
      | none => some (s.fetchFromBase op)
    | .startFetching vtx workersCount submitted =>
      some (s.startFetching getHash vtx workersCount submitted)
    | .stop op => some (s.beginStop commit op)
    | op => some (s.complete op (runLocal s.cache s.base op))
  | _ => none

/-- The main thread goes on after a wait. -/
def resume : Option State :=
  match s.main with
  | .idle => none
  | .awaiting i op =>
    match s.inputs[i]? with
    | none => some { s with aborted := some .outOfRange }
    | some input =>
      if input.ready then some (s.complete (.fetch op) (runFetch s.cache input.coin op)) else none
  | .stopping op =>
    -- the futures are waited for one by one
    if s.workers.all fun w => w == .finished then some (s.clearQueue.finishStop commit op)
    else none

/-- One event; none happens after a failed assertion. -/
def step (e : Event) : Option State :=
  match s.aborted with
  | some _ => none
  | none =>
    match e with
    | .main op => s.mainStep getHash commit op
    | .resume => s.resume commit
    | .worker k => s.workerStep k

/-- A sequence of events, each of which can happen. -/
def run : State → List Event → Option State
  | s, [] => some s
  | s, e :: es =>
    match s.step getHash commit e with
    | none => none
    | some s' => run s' es

end State

end Overlay

end Coins

end Quarlcoin
