import Mathlib.Data.Finmap
import Quarlcoin.Primitives.Transaction
/-!
# The coins cache — the model

`coins.h` and `coins.cpp`. A stack of caches over a map of coins is a `CoinsView`. The
linked list of the flagged entries is the list of their outpoints in link order. What a
function asks of the view below is a parameter, since the subclass used for connecting
blocks asks another way. `Assume` does not stop the program, so a subtraction it guards is
left out where it would underflow.
-/

namespace Quarlcoin

open Arith

namespace Coins

/-- The ways an operation on a coins view stops the program. -/
inductive Fault where
  /-- `AddCoin` asserts that the coin is unspent. -/
  | addedSpentCoin
  /-- `FetchCoin` asserts that the view below returned an unspent coin. -/
  | fetchedSpentCoin
  /-- "Attempted to overwrite an unspent coin". -/
  | overwroteUnspentCoin
  /-- "FRESH flag misapplied to coin that exists in parent cache". -/
  | freshMisapplied
  /-- "Not all unspent flagged entries were cleared". -/
  | flagsNotCleared
  /-- `NextAndMaybeErase` asserts that a spent coin has no script left. -/
  | spentCoinHasScript
  /-- There is no such layer: no operation of the source. -/
  | noSuchLayer
  deriving DecidableEq

/-- `memusage::MallocUsage` where a pointer has 8 bytes. -/
def mallocUsage (alloc : ℕ) : ℕ :=
  if alloc = 0 then 0 else (alloc + 31) / 16 * 16

/-- `Coin`; the default is the one `Clear` leaves. -/
structure Coin where
  out : TxOut := {}
  fCoinBase : Bool := false
  nHeight : BitVec 31 := 0
  deriving DecidableEq

namespace Coin

def isSpent (coin : Coin) : Bool := coin.out.isNull

/-- `Coin::DynamicMemoryUsage`, for a script vector no larger than its content. Up to 36 bytes are
in place. -/
def dynamicMemoryUsage (coin : Coin) : ℕ :=
  if coin.out.scriptPubKey.length ≤ 36 then 0 else mallocUsage coin.out.scriptPubKey.length

end Coin

/-- `CCoinsCacheEntry`: a coin and its flags. -/
structure CoinsCacheEntry where
  coin : Coin := {}
  dirty : Bool := false
  fresh : Bool := false
  deriving DecidableEq

namespace CoinsCacheEntry

variable (e : CoinsCacheEntry)

def isFlagged : Bool := e.dirty || e.fresh

/-- The coin a lookup that finds the entry returns. -/
def value : Option Coin := if e.coin.isSpent then none else some e.coin

end CoinsCacheEntry

/-- `CCoinsViewCache`, without the view below it. -/
structure CoinsViewCache where
  cacheCoins : Finmap fun _ : OutPoint => CoinsCacheEntry := ∅
  /-- The entries linked from `m_sentinel`, in order. -/
  flagged : List OutPoint := []
  blockHash : Uint256 := 0
  dirtyCount : ℕ := 0
  cachedCoinsUsage : ℕ := 0

/-- `TrySub`, whose result the callers only assume. -/
def trySub (i j : ℕ) : ℕ := if i < j then i else i - j

namespace CoinsViewCache

variable (c : CoinsViewCache) (o : OutPoint)

def find : Option CoinsCacheEntry := c.cacheCoins.lookup o

variable (e : CoinsCacheEntry)

/-- `AddFlags` on the entry `e`: the first flag links it at the end. -/
def addFlags (dirty fresh : Bool) : CoinsViewCache :=
  { c with
    cacheCoins := c.cacheCoins.insert o
      { e with dirty := e.dirty || dirty, fresh := e.fresh || fresh }
    flagged := if e.isFlagged then c.flagged else c.flagged ++ [o] }

def setDirty : CoinsViewCache := c.addFlags o e true false

def setFresh : CoinsViewCache := c.addFlags o e false true

/-- `SetClean` takes the entry `e` out of the list again. -/
def setClean : CoinsViewCache :=
  if e.isFlagged then
    { c with
      cacheCoins := c.cacheCoins.insert o { e with dirty := false, fresh := false }
      flagged := c.flagged.erase o }
  else c

/-- `cacheCoins.erase` on the entry `e`, whose destructor unlinks it. -/
def erase : CoinsViewCache :=
  { c with
    cacheCoins := c.cacheCoins.erase o
    flagged := if e.isFlagged then c.flagged.erase o else c.flagged }

/-- The counters after an entry's coin is taken out of them. -/
def subDirty : CoinsViewCache :=
  { c with dirtyCount := trySub c.dirtyCount e.dirty.toNat }

def subUsage : CoinsViewCache :=
  { c with cachedCoinsUsage := trySub c.cachedCoinsUsage e.coin.dynamicMemoryUsage }

def incDirty : CoinsViewCache := { c with dirtyCount := c.dirtyCount + 1 }

def addUsage (coin : Coin) : CoinsViewCache :=
  { c with cachedCoinsUsage := c.cachedCoinsUsage + coin.dynamicMemoryUsage }

/-! ## Lookups -/

section

variable {β : Type} (b : β)

/-- `FetchCoin`, if need be from the view below, whose state is `b` and whose answer is
`fromBase`. -/
def fetchCoin (fromBase : Except Fault (β × Option Coin)) :
    Except Fault (CoinsViewCache × β × Option CoinsCacheEntry) :=
  match c.find o with
  | some e => .ok (c, b, some e)
  | none =>
    match fromBase with
    | .error f => .error f
    | .ok (b, none) => .ok (c, b, none)
    | .ok (b, some coin) =>
      if coin.isSpent then .error .fetchedSpentCoin
      else
        let e : CoinsCacheEntry := { coin }
        .ok ({ c.addUsage coin with cacheCoins := c.cacheCoins.insert o e }, b, some e)

/-! ## Changes -/

def addCoin (coin : Coin) (possibleOverwrite : Bool) : Except Fault CoinsViewCache :=
  if coin.isSpent then .error .addedSpentCoin
  else if coin.out.scriptPubKey.isUnspendable then .ok c
  else
    -- `emplace` leaves an entry that is there as it is
    let found := c.find o
    let it := found.getD {}
    if !possibleOverwrite && !it.coin.isSpent then .error .overwroteUnspentCoin
    else
      let fresh := !possibleOverwrite && !it.dirty
      let c := if found.isSome then (c.subDirty it).subUsage it else c
      let it := { it with coin }
      let c := (c.setDirty o it).incDirty
      let c := if fresh then c.setFresh o { it with dirty := true } else c
      .ok (c.addUsage coin)

/-- `SpendCoin`: the coin moved out, or `none` where it returns `false`. -/
def spendCoin (fromBase : Except Fault (β × Option Coin)) :
    Except Fault (CoinsViewCache × β × Option Coin) :=
  match c.fetchCoin o b fromBase with
  | .error f => .error f
  | .ok (c, b, none) => .ok (c, b, none)
  | .ok (c, b, some it) =>
    let c := (c.subDirty it).subUsage it
    if it.fresh then .ok (c.erase o it, b, some it.coin)
    else .ok ((c.setDirty o { it with coin := {} }).incDirty, b, some it.coin)

end

def uncache : CoinsViewCache :=
  match c.find o with
  | some e => if e.dirty then c else (c.subUsage e).erase o e
  | none => c

def setBestBlock (hash : Uint256) : CoinsViewCache := { c with blockHash := hash }

def clear : CoinsViewCache := { c with cacheCoins := ∅, flagged := [] }

def reset : CoinsViewCache :=
  { c.clear with cachedCoinsUsage := 0, dirtyCount := 0, blockHash := 0 }

/-- What `BatchWrite` does with one dirty entry. -/
def writeEntry (it : CoinsCacheEntry) : Except Fault CoinsViewCache :=
  match c.find o with
  | none =>
    if it.fresh && it.coin.isSpent then .ok c
    else
      let us : CoinsCacheEntry := { coin := it.coin }
      let c := ((c.setDirty o us).incDirty).addUsage it.coin
      .ok (if it.fresh then c.setFresh o { us with dirty := true } else c)
  | some us =>
    if it.fresh && !us.coin.isSpent then .error .freshMisapplied
    else if us.fresh && it.coin.isSpent then .ok (((c.subDirty us).subUsage us).erase o us)
    else
      let c := (c.subUsage us).addUsage it.coin
      let us' := { us with coin := it.coin }
      .ok (if us.dirty then { c with cacheCoins := c.cacheCoins.insert o us' }
        else (c.setDirty o us').incDirty)

/-- `NextAndMaybeErase`, as far as it changes the cache the cursor is over. -/
def nextAndMaybeErase (willErase : Bool) (current : CoinsCacheEntry) :
    Except Fault CoinsViewCache :=
  let c := c.subDirty current
  if willErase then .ok c
  else if current.coin.isSpent then
    if current.coin.dynamicMemoryUsage = 0 then .ok (c.erase o current)
    else .error .spentCoinHasScript
  else .ok (c.setClean o current)

end CoinsViewCache

/-- The unspent coins: a map from outpoints. -/
abbrev UtxoSet : Type := Finmap fun _ : OutPoint => Coin

/-- `CCoinsView`: a map of coins with the block it is the state after, or a
cache over a view. -/
inductive CoinsView where
  | base (coins : UtxoSet) (bestBlock : Uint256)
  | cache (c : CoinsViewCache) (below : CoinsView)

namespace CoinsView

def peekCoin : CoinsView → OutPoint → Option Coin
  | base coins _, o => coins.lookup o
  | cache c below, o =>
    match c.find o with
    | some e => e.value
    | none => below.peekCoin o

/-- `GetCoin`, which leaves what it had to fetch in every cache on the way. -/
def getCoin : CoinsView → OutPoint → Except Fault (CoinsView × Option Coin)
  | base coins hash, o => .ok (base coins hash, coins.lookup o)
  | cache c below, o =>
    match c.fetchCoin o below (below.getCoin o) with
    | .error f => .error f
    | .ok (c, below, it) => .ok (cache c below, it.bind CoinsCacheEntry.value)

def accessCoin : CoinsView → OutPoint → Except Fault (CoinsView × Coin)
  | base .., _ => .error .noSuchLayer
  | cache c below, o =>
    match c.fetchCoin o below (below.getCoin o) with
    | .error f => .error f
    | .ok (c, below, it) => .ok (cache c below, (it.map CoinsCacheEntry.coin).getD {})

def haveCoin : CoinsView → OutPoint → Except Fault (CoinsView × Bool)
  | base coins hash, o => .ok (base coins hash, (coins.lookup o).isSome)
  | cache c below, o =>
    match c.fetchCoin o below (below.getCoin o) with
    | .error f => .error f
    | .ok (c, below, it) => .ok (cache c below, it.any fun e => !e.coin.isSpent)

variable (o : OutPoint)

def addCoin (coin : Coin) (possibleOverwrite : Bool) : CoinsView → Except Fault CoinsView
  | base .. => .error .noSuchLayer
  | cache c below => (c.addCoin o coin possibleOverwrite).map (cache · below)

def spendCoin : CoinsView → OutPoint → Except Fault (CoinsView × Option Coin)
  | base .., _ => .error .noSuchLayer
  | cache c below, o =>
    match c.spendCoin o below (below.getCoin o) with
    | .error f => .error f
    | .ok (c, below, moved) => .ok (cache c below, moved)

def uncache : CoinsView → Except Fault CoinsView
  | base .. => .error .noSuchLayer
  | cache c below => .ok (cache (c.uncache o) below)

def reset : CoinsView → Except Fault CoinsView
  | base .. => .error .noSuchLayer
  | cache c below => .ok (cache c.reset below)

/-- `GetBestBlock`, which a cache keeps once it has asked. -/
def getBestBlock : CoinsView → CoinsView × Uint256
  | base coins hash => (base coins hash, hash)
  | cache c below =>
    if c.blockHash = 0 then
      (cache (c.setBestBlock below.getBestBlock.2) below.getBestBlock.1, below.getBestBlock.2)
    else (cache c below, c.blockHash)

def setBestBlock (hash : Uint256) : CoinsView → CoinsView
  | base coins _ => base coins hash
  | cache c below => cache (c.setBestBlock hash) below

/-! ## Writing to the view below -/

/-- What `BatchWrite` does with one dirty entry. A map stores the coin, or
drops it if it is spent. -/
def writeEntry (it : CoinsCacheEntry) : CoinsView → Except Fault CoinsView
  | base coins hash =>
    .ok (base (if it.coin.isSpent then coins.erase o else coins.insert o it.coin) hash)
  | cache c below => (c.writeEntry o it).map (cache · below)

def batchWriteLoop (willErase : Bool) :
    List OutPoint → CoinsViewCache → CoinsView → Except Fault (CoinsViewCache × CoinsView)
  | [], child, view => .ok (child, view)
  | o :: rest, child, view =>
    match child.find o with
    | none => batchWriteLoop willErase rest child view
    | some it => do
      let view ← if it.dirty then view.writeEntry o it else .ok view
      let child ← child.nextAndMaybeErase o willErase it
      batchWriteLoop willErase rest child view

def batchWrite (willErase : Bool) (child : CoinsViewCache) (view : CoinsView) :
    Except Fault (CoinsViewCache × CoinsView) := do
  let (child, view) ← batchWriteLoop willErase child.flagged child view
  .ok (child, view.setBestBlock child.blockHash)

def flush : CoinsView → Except Fault CoinsView
  | base .. => .error .noSuchLayer
  | cache c below => do
    let (c, below) ← batchWrite true c below
    .ok (cache { c.clear with cachedCoinsUsage := 0 } below)

def sync : CoinsView → Except Fault CoinsView
  | base .. => .error .noSuchLayer
  | cache c below => do
    let (c, below) ← batchWrite false c below
    if c.flagged.isEmpty then .ok (cache c below) else .error .flagsNotCleared

end CoinsView

end Coins

end Quarlcoin
