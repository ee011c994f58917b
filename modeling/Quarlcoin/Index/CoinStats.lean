import Mathlib.Data.UInt
import Quarlcoin.Validation.Replay
/-!
# The coin statistics index

`index/coinstatsindex.cpp` follows the active chain and keeps totals of the UTXO set, for
every block under its height; a rewind first copies the entry of a block to one under its
hash. The `MuHash3072` is only written by a commit, and after a crash the index starts again
from there.

The entries are bytes. The one under a height holds the hash of its block before the totals,
the one under a hash the totals alone, and `RevertBlock` reads both as if the hash were
there (`readHashEntryAsPair`). `MuHash3072` is a commutative group. Additions of amounts
that do not fit into 64 bits are faults.
-/

namespace Quarlcoin

open Arith Codec Coins Serialize List

namespace CoinStatsIndex

/-- What may not happen. -/
inductive Fault where
  /-- `CustomAppend` returns `false`. -/
  | unexpectedBlock
  /-- An `assert` or `Assert` fails. -/
  | assertion
  /-- `vtxundo.at(i - 1)` throws, or there is no input for a spent coin. -/
  | undoMismatch
  /-- A sum of amounts overflows. -/
  | overflow
  /-- `CopyHeightIndexToHashIndex` finds no entry. -/
  | heightEntryMissing
  /-- `RevertBlock` finds no entry of the previous block. -/
  | prevEntryMissing
  /-- `CustomInit` returns `false`. -/
  | corrupted
  /-- The best block of the index is not in the block index. -/
  | bestBlockNotFound
  /-- A block or its undo data cannot be read. -/
  | blockUnavailable
  deriving DecidableEq

/-! ## Totals -/

/-- The totals of `DBVal`, but for the hash. -/
structure CoinTotals where
  transactionOutputCount : UInt64 := 0
  bogoSize : UInt64 := 0
  totalAmount : CAmount := 0
  totalSubsidy : CAmount := 0
  /-- An `arith_uint256`, as the two below. -/
  totalPrevoutSpentAmount : BitVec 256 := 0
  totalNewOutputsExCoinbaseAmount : BitVec 256 := 0
  totalCoinbaseAmount : BitVec 256 := 0
  totalUnspendablesGenesisBlock : CAmount := 0
  totalUnspendablesBip30 : CAmount := 0
  totalUnspendablesScripts : CAmount := 0
  totalUnspendablesUnclaimedRewards : CAmount := 0
  deriving DecidableEq

structure DBVal extends CoinTotals where
  muhash : Uint256
  deriving DecidableEq

variable (v : DBVal)

def serDBVal : List UInt8 :=
  serUint256 v.muhash ++ (serUInt64 v.transactionOutputCount ++ (serUInt64 v.bogoSize ++
    (serInt64 v.totalAmount ++ (serInt64 v.totalSubsidy ++
    (serUint256 v.totalPrevoutSpentAmount ++ (serUint256 v.totalNewOutputsExCoinbaseAmount ++
    (serUint256 v.totalCoinbaseAmount ++ (serInt64 v.totalUnspendablesGenesisBlock ++
    (serInt64 v.totalUnspendablesBip30 ++ (serInt64 v.totalUnspendablesScripts ++
      serInt64 v.totalUnspendablesUnclaimedRewards))))))))))

def unserDBVal : Stream DBVal := do
  let muhash ← unserUint256
  let transactionOutputCount ← unserUInt64
  let bogoSize ← unserUInt64
  let totalAmount ← unserInt64
  let totalSubsidy ← unserInt64
  let totalPrevoutSpentAmount ← unserUint256
  let totalNewOutputsExCoinbaseAmount ← unserUint256
  let totalCoinbaseAmount ← unserUint256
  let totalUnspendablesGenesisBlock ← unserInt64
  let totalUnspendablesBip30 ← unserInt64
  let totalUnspendablesScripts ← unserInt64
  let totalUnspendablesUnclaimedRewards ← unserInt64
  pure
    { muhash, transactionOutputCount, bogoSize, totalAmount, totalSubsidy,
      totalPrevoutSpentAmount, totalNewOutputsExCoinbaseAmount, totalCoinbaseAmount,
      totalUnspendablesGenesisBlock, totalUnspendablesBip30, totalUnspendablesScripts,
      totalUnspendablesUnclaimedRewards }

def serPair (v : Uint256 × DBVal) : List UInt8 := serUint256 v.1 ++ serDBVal v.2

def unserPair : Stream (Uint256 × DBVal) := do
  let hash ← unserUint256
  let value ← unserDBVal
  pure (hash, value)

/-- `CDBWrapper::Read`: an entry that is too short for its type counts as missing. -/
def readEntry {α : Type} (unser : Stream α) (bytes : Option (List UInt8)) : Option α :=
  bytes.bind fun bs =>
    match unser bs with
    | .ok (value, _) => some value
    | .error _ => none

theorem lawful_unserDBVal : Lawful serDBVal unserDBVal fun _ => True := by
  refine lawful_unserUint256.total (γ := DBVal) (·.muhash) fun _ => ?_
  refine lawful_unserUInt64.total (γ := DBVal) (·.transactionOutputCount) fun _ => ?_
  refine lawful_unserUInt64.total (γ := DBVal) (·.bogoSize) fun _ => ?_
  refine lawful_unserInt64.total (γ := DBVal) (·.totalAmount) fun _ => ?_
  refine lawful_unserInt64.total (γ := DBVal) (·.totalSubsidy) fun _ => ?_
  refine lawful_unserUint256.total (γ := DBVal) (·.totalPrevoutSpentAmount) fun _ => ?_
  refine lawful_unserUint256.total (γ := DBVal) (·.totalNewOutputsExCoinbaseAmount) fun _ => ?_
  refine lawful_unserUint256.total (γ := DBVal) (·.totalCoinbaseAmount) fun _ => ?_
  refine lawful_unserInt64.total (γ := DBVal) (·.totalUnspendablesGenesisBlock) fun _ => ?_
  refine lawful_unserInt64.total (γ := DBVal) (·.totalUnspendablesBip30) fun _ => ?_
  refine lawful_unserInt64.total (γ := DBVal) (·.totalUnspendablesScripts) fun _ => ?_
  refine lawful_unserInt64.last (γ := DBVal) (·.totalUnspendablesUnclaimedRewards) ?_ fun _ _ => by simp
  rintro _ ⟨⟨⟨⟨⟨⟨⟨⟨⟨⟨⟨-, rfl⟩, rfl⟩, rfl⟩, rfl⟩, rfl⟩, rfl⟩, rfl⟩, rfl⟩, rfl⟩, rfl⟩, rfl⟩
  exact ⟨trivial, rfl⟩

theorem lawful_unserPair : Lawful serPair unserPair fun _ => True :=
  lawful_unserUint256.next Prod.fst (fun _ _ => trivial) fun _ _ =>
    lawful_unserDBVal.last Prod.snd (by rintro _ ⟨-, rfl⟩; exact ⟨trivial, rfl⟩) fun _ _ => by simp

theorem readEntry_of_lawful {α : Type} {ser : α → List UInt8} {unser : Stream α}
    (h : Lawful ser unser fun _ => True) (value : α) :
    readEntry unser (some (ser value)) = some value := by
  have hdecode := h.decode value trivial []
  rw [append_nil] at hdecode
  simp [readEntry, hdecode]

theorem length_serDBVal : (serDBVal v).length = 192 := by
  simp only [serDBVal, serUint256, serUInt64, serInt64, length_append, length_leBytes]

/-- **A pair is never read** from totals alone: they are too short. -/
theorem readEntry_unserPair_serDBVal : readEntry unserPair (some (serDBVal v)) = none := by
  rw [readEntry, Option.bind_some]
  split
  · rename_i value rest hread
    obtain ⟨-, hbytes⟩ := lawful_unserPair.canonical _ _ _ hread
    have hlength := congrArg length hbytes
    rw [serPair, serUint256, length_append, length_append, length_serDBVal,
      length_serDBVal, length_leBytes] at hlength
    omega
  · rfl

variable (G : Type)

/-- What the index keeps in memory. -/
structure Memory extends CoinTotals where
  muhash : G
  currentBlockHash : Uint256 := 0

/-- The database: entries under heights and under hashes, `DB_MUHASH` and `DB_BEST_BLOCK`. -/
structure IndexDB where
  heightIndex : ℕ → Option (List UInt8) := fun _ => none
  hashIndex : Uint256 → Option (List UInt8) := fun _ => none
  muhash : Option G := none
  bestBlock : Option Uint256 := none

structure Env where
  params : Consensus.Params
  /-- The hash of transactions. -/
  hash : List UInt8 → Uint256
  /-- The element of a coin in `MuHash3072`. -/
  element : OutPoint → Coin → G
  /-- `MuHash3072::Finalize`. -/
  finalize : G → Uint256

structure BlockInfo where
  hash : Uint256
  prevHash : Option Uint256
  height : ℕ
  data : Block
  undoData : BlockUndo

def addAmounts (a b : CAmount) : Except Fault CAmount :=
  if fitsAmount (a.toInt + b.toInt) then .ok (a + b) else .error .overflow

def subAmounts (a b : CAmount) : Except Fault CAmount :=
  if fitsAmount (a.toInt - b.toInt) then .ok (a - b) else .error .overflow

/-- An amount as a `uint64_t` and then as an `arith_uint256`. -/
def amount256 (a : CAmount) : BitVec 256 := a.toUInt64.toBitVec.setWidth 256

def getBogoSize (scriptPubKey : Script) : UInt64 :=
  32 + 4 + 4 + 8 + 2 + UInt64.ofNat scriptPubKey.length

variable {G : Type} [AddCommGroup G] (env : Env G)

/-! ## Appending a block -/

variable (outpoint : OutPoint)

def appendOutput (isCoinbase : Bool) (height : ℕ) (out : TxOut)
    (m : Memory G) : Except Fault (Memory G) :=
  if out.scriptPubKey.isUnspendable then do
    let scripts ← addAmounts m.totalUnspendablesScripts out.nValue
    .ok { m with totalUnspendablesScripts := scripts }
  else do
    let totalAmount ← addAmounts m.totalAmount out.nValue
    .ok { m with
      muhash := m.muhash + env.element outpoint (createdCoin isCoinbase height out)
      totalCoinbaseAmount :=
        if isCoinbase then m.totalCoinbaseAmount + amount256 out.nValue else m.totalCoinbaseAmount
      totalNewOutputsExCoinbaseAmount :=
        if isCoinbase then m.totalNewOutputsExCoinbaseAmount
        else m.totalNewOutputsExCoinbaseAmount + amount256 out.nValue
      transactionOutputCount := m.transactionOutputCount + 1
      totalAmount
      bogoSize := m.bogoSize + getBogoSize out.scriptPubKey }

def appendOutputs (txid : Uint256) (isCoinbase : Bool) (height : ℕ) :
    ℕ → List TxOut → Memory G → Except Fault (Memory G)
  | _, [], m => .ok m
  | j, out :: vout, m => do
    let m ← appendOutput env ⟨txid, UInt32.ofNat j⟩ isCoinbase height out m
    appendOutputs txid isCoinbase height (j + 1) vout m

def spendPrevout (coin : Coin) (m : Memory G) : Except Fault (Memory G) := do
  let totalAmount ← subAmounts m.totalAmount coin.out.nValue
  .ok { m with
    muhash := m.muhash - env.element outpoint coin
    totalPrevoutSpentAmount := m.totalPrevoutSpentAmount + amount256 coin.out.nValue
    transactionOutputCount := m.transactionOutputCount - 1
    totalAmount
    bogoSize := m.bogoSize - getBogoSize coin.out.scriptPubKey }

def spendPrevouts : List TxIn → List Coin → Memory G → Except Fault (Memory G)
  | _, [], m => .ok m
  | [], _ :: _, _ => .error .undoMismatch
  | txin :: vin, coin :: vprevout, m => do
    let m ← spendPrevout env txin.prevout coin m
    spendPrevouts vin vprevout m

variable (b : BlockInfo)

def appendTx (blockSubsidy : CAmount) (i : ℕ) (tx : Transaction) (m : Memory G) :
    Except Fault (Memory G) :=
  if tx.isCoinBase && isBIP30Unspendable b.hash b.height then do
    let bip30 ← addAmounts m.totalUnspendablesBip30 blockSubsidy
    .ok { m with totalUnspendablesBip30 := bip30 }
  else do
    let m ← appendOutputs env (tx.getHash env.hash) tx.isCoinBase b.height 0 tx.vout m
    if tx.isCoinBase then .ok m
    else
      match i, b.undoData.vtxundo[i - 1]? with
      | _ + 1, some txundo => spendPrevouts env tx.vin txundo m
      | _, _ => .error .undoMismatch

def appendTxs (b : BlockInfo) (blockSubsidy : CAmount) :
    ℕ → List Transaction → Memory G → Except Fault (Memory G)
  | _, [], m => .ok m
  | i, tx :: vtx, m => do
    let m ← appendTx env b blockSubsidy i tx m
    appendTxs b blockSubsidy (i + 1) vtx m

variable (m : Memory G)

/-- What the block did not claim of its reward is added to the unspendable amounts. -/
def claimRewards : Except Fault (Memory G) := do
  let sum ← addAmounts m.totalUnspendablesGenesisBlock m.totalUnspendablesBip30
  let sum ← addAmounts sum m.totalUnspendablesScripts
  let unspendable ← addAmounts sum m.totalUnspendablesUnclaimedRewards
  let unclaimedRewards := (m.totalPrevoutSpentAmount + amount256 m.totalSubsidy) -
    (m.totalNewOutputsExCoinbaseAmount + m.totalCoinbaseAmount + amount256 unspendable)
  if unclaimedRewards.toNat ≤ 2 ^ 63 - 1 then do
    let unclaimed ← addAmounts m.totalUnspendablesUnclaimedRewards
      (Int64.ofBitVec (unclaimedRewards.setWidth 64))
    .ok { m with totalUnspendablesUnclaimedRewards := unclaimed }
  else .error .assertion

/-- The entry of the block that the memory stands at. -/
def Memory.entry : DBVal := { m with muhash := env.finalize m.muhash }

variable (db : IndexDB G)

def customAppend : Except Fault (Memory G × IndexDB G) := do
  let blockSubsidy := getBlockSubsidy b.height env.params
  let totalSubsidy ← addAmounts m.totalSubsidy blockSubsidy
  let m := { m with totalSubsidy }
  let m ←
    if b.height > 0 then
      if some m.currentBlockHash ≠ b.prevHash then .error .unexpectedBlock
      else appendTxs env b blockSubsidy 0 b.data.vtx m
    else do
      let genesis ← addAmounts m.totalUnspendablesGenesisBlock blockSubsidy
      .ok { m with totalUnspendablesGenesisBlock := genesis }
  let m ← claimRewards m
  let m := { m with currentBlockHash := b.hash }
  .ok (m, { db with
    heightIndex := Function.update db.heightIndex b.height (some (serPair (b.hash, m.entry env))) })

/-! ## Removing a block -/

def revertOutputs (txid : Uint256) (isCoinbase : Bool) (height : ℕ) : ℕ → List TxOut → G → G
  | _, [], g => g
  | j, out :: vout, g =>
    revertOutputs txid isCoinbase height (j + 1) vout (if out.scriptPubKey.isUnspendable then g
      else g - env.element ⟨txid, UInt32.ofNat j⟩ (createdCoin isCoinbase height out))

def restorePrevouts : List TxIn → List Coin → G → Except Fault G
  | _, [], g => .ok g
  | [], _ :: _, _ => .error .undoMismatch
  | txin :: vin, coin :: vprevout, g =>
    restorePrevouts vin vprevout (g + env.element txin.prevout coin)

def revertTx (i : ℕ) (tx : Transaction) (g : G) : Except Fault G :=
  if tx.isCoinBase && isBIP30Unspendable b.hash b.height then .ok g
  else
    let g := revertOutputs env (tx.getHash env.hash) tx.isCoinBase b.height 0 tx.vout g
    if tx.isCoinBase then .ok g
    else
      match i, b.undoData.vtxundo[i - 1]? with
      | _ + 1, some txundo => restorePrevouts env tx.vin txundo g
      | _, _ => .error .undoMismatch

def revertTxs (b : BlockInfo) : ℕ → List Transaction → G → Except Fault G
  | _, [], g => .ok g
  | i, tx :: vtx, g => do
    let g ← revertTx env b i tx g
    revertTxs b (i + 1) vtx g

variable (hash : Uint256)

/-- The entry under a hash as `RevertBlock` reads it: as a pair. -/
def readHashEntryAsPair (db : IndexDB G) : Option DBVal :=
  (readEntry unserPair (db.hashIndex hash)).map Prod.snd

/-- The entry of the previous block that `RevertBlock` reads; empty for the genesis block. -/
def readPrevEntry : Except Fault DBVal :=
  if b.height > 0 then
    match readEntry unserPair (db.heightIndex (b.height - 1)), b.prevHash with
    | some (hash, value), some expected =>
      if hash = expected then .ok value
      else
        match readHashEntryAsPair expected db with
        | some value => .ok value
        | none => .error .prevEntryMissing
    | _, _ => .error .prevEntryMissing
  else .ok { muhash := 0 }

def revertBlock : Except Fault (Memory G) := do
  let readOut ← readPrevEntry b db
  let muhash ← revertTxs env b 0 b.data.vtx m.muhash
  if readOut.muhash = env.finalize muhash then
    match b.prevHash with
    | some prevHash => .ok { readOut with muhash, currentBlockHash := prevHash }
    | none => .error .assertion
  else .error .assertion

def copyHeightIndexToHashIndex (height : ℕ) (db : IndexDB G) : Except Fault (IndexDB G) :=
  match readEntry unserPair (db.heightIndex height) with
  | some (hash, value) =>
    .ok { db with hashIndex := Function.update db.hashIndex hash (some (serDBVal value)) }
  | none => .error .heightEntryMissing

def customRemove : Except Fault (Memory G × IndexDB G) := do
  let db ← copyHeightIndexToHashIndex b.height db
  let m ← revertBlock env b m db
  .ok (m, db)

/-! ## Looking up and starting -/

def lookUpOne (height : ℕ) (db : IndexDB G) : Option DBVal :=
  match readEntry unserPair (db.heightIndex height) with
  | none => none
  | some (hash', value) =>
    if hash' = hash then some value else readEntry unserDBVal (db.hashIndex hash)

def customInit (block : Option (Uint256 × ℕ)) (db : IndexDB G) : Except Fault (Memory G) :=
  let muhash := db.muhash.getD 0
  match block with
  | none => .ok { muhash }
  | some (hash, height) =>
    match lookUpOne hash height db with
    | none => .error .corrupted
    | some entry =>
      if entry.muhash ≠ env.finalize muhash then .error .corrupted
      else .ok { entry with muhash, currentBlockHash := hash }

/-! ## Following the chain -/

section Base

variable {ι : Type} [DecidableEq ι] (s : BlockStore ι)

/-- The index with the block that it stands at, `m_best_block_index`. -/
structure Index (ι G : Type) where
  best : Option ι
  memory : Memory G
  db : IndexDB G

variable (i : ι)

/-- The block as `ProcessBlock` and `Rewind` read it. The genesis block has no undo
data. -/
def blockInfo : Except Fault BlockInfo :=
  match s.readBlock i, if s.nHeight i > 0 then s.readBlockUndo i else some ⟨[]⟩ with
  | some data, some undoData =>
    .ok { hash := s.getBlockHash i, prevHash := (s.pprev i).map s.getBlockHash,
          height := s.nHeight i, data, undoData }
  | _, _ => .error .blockUnavailable

/-- `ProcessBlock` and `SetBestBlockIndex`. -/
def processBlock (x : Index ι G) : Except Fault (Index ι G) := do
  let b ← blockInfo s i
  let (memory, db) ← customAppend env b x.memory x.db
  .ok { best := some i, memory, db }

/-- The loop of `Rewind`, for at most `fuel` rounds. A null pointer is an assertion. -/
def rewindLoop (newTip : ι) : ℕ → ι → Memory G → IndexDB G → Except Fault (Memory G × IndexDB G)
  | 0, _, _, _ => .error .assertion
  | fuel + 1, iterTip, memory, db =>
    if iterTip = newTip then .ok (memory, db)
    else do
      let b ← blockInfo s iterTip
      let (memory, db) ← customRemove env b memory db
      match s.pprev iterTip with
      | none => .error .assertion
      | some prev => rewindLoop newTip fuel prev memory db

def rewind (newTip : ι) (x : Index ι G) : Except Fault (Index ι G) :=
  match x.best with
  | none => .error .assertion
  | some currentTip =>
    if s.getAncestor currentTip (s.nHeight newTip) = some newTip then do
      let (memory, db) ← rewindLoop env s newTip (s.nHeight currentTip + 1) currentTip x.memory x.db
      .ok { best := some newTip, memory, db }
    else .error .assertion

def blockConnected (x : Index ι G) : Except Fault (Index ι G) :=
  match x.best with
  | none => if s.nHeight i = 0 then processBlock env s i x else .error .unexpectedBlock
  | some best =>
    if s.getAncestor best ((s.nHeight i : ℤ) - 1) ≠ s.pprev i then .ok x
    else
      match s.pprev i with
      | none => .error .assertion
      | some prev =>
        if best = prev then processBlock env s i x
        else do
          let x ← rewind env s prev x
          processBlock env s i x

/-- `Commit`, with the last block of the chainstate that was flushed. -/
def commit (lastFlushed : Option ι) (x : Index ι G) : Index ι G :=
  match x.best, lastFlushed with
  | some indexTip, some flushed =>
    if s.getAncestor flushed (s.nHeight indexTip) = some indexTip then
      { x with db := { x.db with
        muhash := some x.memory.muhash
        bestBlock := some (s.getBlockHash indexTip) } }
    else x
  | _, _ => x

/-- `Init`: what is left after a crash is the database. -/
def init (db : IndexDB G) : Except Fault (Index ι G) :=
  match db.bestBlock with
  | none => do
    let memory ← customInit env none db
    .ok { best := none, memory, db }
  | some hash =>
    match s.lookupBlockIndex hash with
    | none => .error .bestBlockNotFound
    | some i => do
      let memory ← customInit env (some (s.getBlockHash i, s.nHeight i)) db
      .ok { best := some i, memory, db }

/-- What can happen to the index. -/
inductive Event (ι : Type) where
  | append (i : ι)
  | rewind (newTip : ι)
  | blockConnected (i : ι)
  | commit (lastFlushed : Option ι)
  | crash

def exec (x : Index ι G) : Event ι → Except Fault (Index ι G)
  | .append i => processBlock env s i x
  | .rewind newTip => CoinStatsIndex.rewind env s newTip x
  | .blockConnected i => CoinStatsIndex.blockConnected env s i x
  | .commit lastFlushed => .ok (CoinStatsIndex.commit s lastFlushed x)
  | .crash => init env s x.db

end Base

end CoinStatsIndex

end Quarlcoin
