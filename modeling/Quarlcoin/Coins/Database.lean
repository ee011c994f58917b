import Quarlcoin.Coins.Overlay
/-!
# The coins database

`CCoinsViewDB`. `BatchWrite` writes the dirty entries of a cache in batches; the first
replaces the best block by two head blocks, and the last replaces these by the new best
block. When a batch is full is a parameter. The result is the list of states on disk, one
for every batch: each but the last is a mixture of the old and the new
(`CoinsViewDB.flush_spec`).
-/

namespace Quarlcoin

open Arith Function Option List

namespace Coins

open CoinsView Overlay

/-- What the database holds under its keys. -/
structure CoinsViewDB where
  coins : UtxoSet := ∅
  /-- `DB_BEST_BLOCK` -/
  bestBlock : Option Uint256 := none
  /-- `DB_HEAD_BLOCKS` -/
  headBlocks : Option (List Uint256) := none

/-- An operation that a `CDBBatch` collects. -/
inductive BatchOp where
  | eraseBestBlock
  | writeBestBlock (hash : Uint256)
  | eraseHeadBlocks
  | writeHeadBlocks (hashes : List Uint256)
  | eraseCoin (o : OutPoint)
  | writeCoin (o : OutPoint) (coin : Coin)

/-- Where `BatchWrite` stops the program. -/
inductive DBFault where
  /-- `assert(!block_hash.IsNull())` -/
  | nullBlockHash
  /-- `assert(old_heads[0] == block_hash)` -/
  | otherHead
  deriving DecidableEq

variable {it : CoinsCacheEntry} {o : OutPoint} {entries : List (OutPoint × CoinsCacheEntry)}
  {oldHead : Uint256}

namespace CoinsViewDB

variable (db : CoinsViewDB)

def getBestBlock : Uint256 := db.bestBlock.getD 0

def getHeadBlocks : List Uint256 := db.headBlocks.getD []

def view : CoinsView := base db.coins db.getBestBlock

def coinAt (o : OutPoint) : Option Coin := db.coins.lookup o

def apply : BatchOp → CoinsViewDB
  | .eraseBestBlock => { db with bestBlock := none }
  | .writeBestBlock hash => { db with bestBlock := some hash }
  | .eraseHeadBlocks => { db with headBlocks := none }
  | .writeHeadBlocks hashes => { db with headBlocks := some hashes }
  | .eraseCoin o => { db with coins := db.coins.erase o }
  | .writeCoin o coin => { db with coins := db.coins.insert o coin }

def writeBatch (batch : List BatchOp) : CoinsViewDB := batch.foldl apply db

/-- What the loop of `BatchWrite` adds to the batch for an entry. -/
def entryOps (o : OutPoint) (it : CoinsCacheEntry) : List BatchOp :=
  if it.dirty then [if it.coin.isSpent then .eraseCoin o else .writeCoin o it.coin] else []

/-- The loop of `BatchWrite` and the batch behind it: the states on disk. -/
def batchLoop (full : List BatchOp → Bool) (blockHash : Uint256) :
    List (OutPoint × CoinsCacheEntry) → List BatchOp → CoinsViewDB → List CoinsViewDB
  | [], batch, db => [db.writeBatch (batch ++ [.eraseHeadBlocks, .writeBestBlock blockHash])]
  | (o, it) :: rest, batch, db =>
    let batch := batch ++ entryOps o it
    if full batch then db.writeBatch batch :: batchLoop full blockHash rest [] (db.writeBatch batch)
    else batchLoop full blockHash rest batch db

def oldTip (blockHash : Uint256) : Except DBFault Uint256 :=
  if db.getBestBlock = 0 then
    match db.getHeadBlocks with
    | [newHead, oldHead] => if newHead = blockHash then .ok oldHead else .error .otherHead
    | _ => .ok 0
  else .ok db.getBestBlock

variable (full : List BatchOp → Bool)

/-- `CCoinsViewDB::BatchWrite`, on the entries that the cursor is over. -/
def batchWrite (entries : List (OutPoint × CoinsCacheEntry))
    (blockHash : Uint256) : Except DBFault (List CoinsViewDB) :=
  if blockHash = 0 then .error .nullBlockHash
  else do
    let oldTip ← db.oldTip blockHash
    .ok (batchLoop full blockHash entries
      [.eraseBestBlock, .writeHeadBlocks [blockHash, oldTip]] db)

/-- `Flush` on a cache over the database: the states on disk. -/
def flush (c : CoinsViewCache) : Except DBFault (List CoinsViewDB) :=
  db.batchWrite full (flaggedEntries c) c.blockHash

/-! ## The states on disk -/

/-- **A write that is under way** from the map `s` to the map `t`. -/
structure Underway (heads : List Uint256) (s t : CoinMap) (db : CoinsViewDB) : Prop where
  bestBlock : db.bestBlock = none
  headBlocks : db.headBlocks = some heads
  mixed : Mixed s t db.coinAt

/-- **A write that is through.** -/
structure Written (blockHash : Uint256) (t : CoinMap) (db : CoinsViewDB) : Prop where
  bestBlock : db.bestBlock = some blockHash
  headBlocks : db.headBlocks = none
  coins : db.coinAt = t

theorem writeBatch_append (batch batch' : List BatchOp) :
    db.writeBatch (batch ++ batch') = (db.writeBatch batch).writeBatch batch' :=
  foldl_append

variable {db} {blockHash : Uint256} {heads : List Uint256} {s t : CoinMap}

/-- **One entry** that has the value of the second map. -/
theorem writeBatch_entryOps (db : CoinsViewDB) (o : OutPoint) (hdirty : it.dirty = true) :
    (db.writeBatch (entryOps o it)).bestBlock = db.bestBlock ∧
      (db.writeBatch (entryOps o it)).headBlocks = db.headBlocks ∧
      (db.writeBatch (entryOps o it)).coinAt = update db.coinAt o it.value := by
  rw [entryOps, if_pos hdirty, CoinsCacheEntry.value]
  cases hs : it.coin.isSpent with
  | true => exact ⟨rfl, rfl, FiniteMap.lookup_erase_eq_update db.coins o⟩
  | false => exact ⟨rfl, rfl, FiniteMap.lookup_insert_eq_update db.coins o it.coin⟩

theorem Underway.write (h : Underway heads s t db)
    (hdirty : it.dirty = true) (hvalue : it.value = t o) :
    Underway heads s t (db.writeBatch (entryOps o it)) := by
  obtain ⟨hbest, hheads, hcoins⟩ := writeBatch_entryOps db o hdirty
  refine ⟨hbest.trans h.bestBlock, hheads.trans h.headBlocks, ?_⟩
  rw [hcoins, hvalue]
  exact h.mixed.write o

/-- What is left to write: the database has the second map everywhere else, once the batch is
written. -/
structure Ahead (t : CoinMap) (entries : List (OutPoint × CoinsCacheEntry)) (db : CoinsViewDB) :
    Prop where
  values : ∀ p ∈ entries, p.2.dirty = true ∧ p.2.value = t p.1
  rest : ∀ o, o ∉ entries.map Prod.fst → db.coinAt o = t o

theorem Ahead.write (h : Ahead t ((o, it) :: entries) db) :
    Ahead t entries (db.writeBatch (entryOps o it)) := by
  obtain ⟨⟨hdirty, hvalue⟩, hentries⟩ := forall_mem_cons.1 h.values
  refine ⟨hentries, fun x hx => ?_⟩
  rw [(writeBatch_entryOps db o hdirty).2.2, hvalue]
  by_cases hxo : x = o
  · subst hxo
    rw [update_self]
  · rw [update_of_ne hxo]
    exact h.rest x (by simp [hxo, hx])

/-- **The loop**: every state on disk but the last is of a write under way. The induction carries
the state that writing the batch now would give. -/
theorem batchLoop_spec (full : List BatchOp → Bool) (blockHash : Uint256) {batch : List BatchOp}
    (h : Underway heads s t (db.writeBatch batch))
    (hahead : Ahead t entries (db.writeBatch batch)) :
    ∃ cut last, batchLoop full blockHash entries batch db = cut ++ [last] ∧
      (∀ db' ∈ cut, Underway heads s t db') ∧ Written blockHash t last := by
  induction entries generalizing batch db with
  | nil =>
    refine ⟨[], _, rfl, fun _ hmem => absurd hmem not_mem_nil, ?_⟩
    rw [writeBatch_append]
    exact ⟨rfl, rfl, funext fun o => hahead.rest o not_mem_nil⟩
  | cons p entries ih =>
    obtain ⟨o, it⟩ := p
    obtain ⟨hdirty, hvalue⟩ : it.dirty = true ∧ it.value = t o := hahead.values _ mem_cons_self
    have hwrite := h.write hdirty hvalue
    have hahead' := hahead.write
    rw [← writeBatch_append] at hwrite hahead'
    rw [batchLoop]
    split
    · have hwritten : Underway heads s t ((db.writeBatch (batch ++ entryOps o it)).writeBatch []) :=
        hwrite
      obtain ⟨cut, last, hloop, hcut, hlast⟩ := ih hwritten hahead'
      refine ⟨_ :: cut, last, ?_, forall_mem_cons.2 ⟨hwrite, hcut⟩, hlast⟩
      rw [hloop, cons_append]
    · exact ih hwrite hahead'

theorem Underway.oldTip (h : Underway [blockHash, oldHead] s t db) :
    db.oldTip blockHash = .ok oldHead := by
  simp only [CoinsViewDB.oldTip, getBestBlock, getHeadBlocks, h.bestBlock, h.headBlocks,
    getD_none, getD_some, if_true]

end CoinsViewDB

/-! ## Flushing a cache to the database -/

variable {c : CoinsViewCache} {below : CoinsView}

theorem mem_flaggedEntries {p : OutPoint × CoinsCacheEntry} :
    p ∈ flaggedEntries c ↔ p.1 ∈ c.flagged ∧ c.find p.1 = some p.2 := by
  obtain ⟨o, e⟩ := p
  simp only [flaggedEntries, mem_filterMap, map_eq_some_iff, Prod.mk.injEq]
  constructor
  · rintro ⟨x, hx, y, hy, rfl, rfl⟩
    exact ⟨hx, hy⟩
  · rintro ⟨ho, he⟩
    exact ⟨o, ho, e, he, rfl, rfl⟩

namespace CoinsViewDB

variable (db : CoinsViewDB)

/-- The flagged entries are what the database lacks of the map of the cache. -/
theorem ahead_flaggedEntries (h : (cache c below).Coherent) (hbelow : below.peekCoin = db.coinAt) :
    Ahead (cache c below).peekCoin (flaggedEntries c) db where
  values p hp := by
    obtain ⟨hmem, hfind⟩ := mem_flaggedEntries.1 hp
    refine ⟨(h.1.mem_flagged hfind).1 hmem, ?_⟩
    rw [peekCoin_cache, hfind]
    rfl
  rest o ho := by
    rw [← hbelow]
    refine Coherent.peekCoin_of_not_mem h fun hmem => ho ?_
    obtain ⟨e, hfind, -⟩ := (h.1.mem_iff o).1 hmem
    exact mem_map.2 ⟨(o, e), mem_flaggedEntries.2 ⟨hmem, hfind⟩, rfl⟩

/-- **Flushing a cache**: every state on disk is of a write under way to the map
of the cache, until the last has that map. -/
theorem flush_spec (full : List BatchOp → Bool)
    (h : (cache c below).Coherent) (hbelow : below.peekCoin = db.coinAt)
    (hblock : c.blockHash ≠ 0) (hold : db.oldTip c.blockHash = .ok oldHead) :
    ∃ cut last, db.flush full c = .ok (cut ++ [last]) ∧
      (∀ db' ∈ cut, Underway [c.blockHash, oldHead] db.coinAt (cache c below).peekCoin db') ∧
      Written c.blockHash (cache c below).peekCoin last := by
  have hstart : Underway [c.blockHash, oldHead] db.coinAt (cache c below).peekCoin
      (db.writeBatch [.eraseBestBlock, .writeHeadBlocks [c.blockHash, oldHead]]) :=
    ⟨rfl, rfl, .left _ _⟩
  have hahead := ahead_flaggedEntries db h hbelow
  obtain ⟨cut, last, hloop, hcut, hlast⟩ := batchLoop_spec full
    c.blockHash hstart ⟨hahead.values, hahead.rest⟩
  refine ⟨cut, last, ?_, hcut, hlast⟩
  simp only [flush, batchWrite, if_neg hblock, hold, ok_bind, hloop]

end CoinsViewDB

end Coins

end Quarlcoin
