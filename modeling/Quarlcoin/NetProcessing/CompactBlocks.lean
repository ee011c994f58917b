import Quarlcoin.Consensus.BlockCheck
import Quarlcoin.Primitives.Size
/-!
# Compact blocks

`blockencodings.h`. Positions are 16-bit numbers in both messages: a block that passes the
checks of a node can be relayed exactly if it has fewer than `2 ^ 16` transactions
(`relayable_iff`); a block of 32 megabytes has room for more (`crowdedBlock_not_relayable`).
-/

namespace Quarlcoin

open Arith Codec Merkle Serialize List BlockHeader Transaction

namespace CompactBlocks

/-! ## The model -/

/-- The failures of writing. -/
inductive WriteError where
  /-- "CustomUintFormatter value out of range" -/
  | valueOutOfRange
  /-- "differential value overflow" -/
  | differentialOverflow
  deriving DecidableEq

structure PrefilledTransaction where
  index : UInt16
  tx : Transaction
  deriving DecidableEq

/-- `CBlockHeaderAndShortTxIDs`. -/
structure HeaderAndShortTxIDs where
  header : BlockHeader
  nonce : UInt64
  shorttxids : List UInt64
  prefilledtxn : List PrefilledTransaction
  deriving DecidableEq

/-- `GetShortID`: the low six bytes of a keyed hash, whose key the header and
the nonce give. -/
def getShortID (sipHash : BlockHeader → UInt64 → Uint256 → UInt64) (header : BlockHeader)
    (nonce : UInt64) (wtxid : Uint256) : UInt64 :=
  sipHash header nonce wtxid &&& 0xffffffffffff

/-- The constructor of `CBlockHeaderAndShortTxIDs`; a block has a coinbase. -/
def ofBlock (env : BlockEnv) (sipHash : BlockHeader → UInt64 → Uint256 → UInt64)
    (nonce : UInt64) (block : Block) : Option HeaderAndShortTxIDs :=
  match block.vtx with
  | [] => none
  | coinbase :: rest => some
    { header := block.header
      nonce
      shorttxids := rest.map fun tx =>
        getShortID sipHash block.header nonce (tx.getWitnessHash env.hash)
      prefilledtxn := [{ index := 0, tx := coinbase }] }

def shortTxIDsLength : ℕ := 6

def serShortID (id : UInt64) : List UInt8 := leBytes shortTxIDsLength id.toNat

def unserShortID : Stream UInt64 := UInt64.ofNat <$> readData shortTxIDsLength

def serPrefilled (p : PrefilledTransaction) : List UInt8 :=
  writeCompactSize p.index.toNat ++ serializeTransaction true p.tx

/-- `CompactSizeFormatter<true>::Unser` into a `uint16_t`. -/
def unserIndex : Stream UInt16 :=
  UInt16.ofNat <$> (readCompactSize true >>= fun n =>
    if 0xffff < n then throw .compactSizeExceedsType else pure n)

def unserPrefilled : Stream PrefilledTransaction := do
  let index ← unserIndex
  let tx ← unserializeTransaction true
  pure { index, tx }

variable (cmpctblock : HeaderAndShortTxIDs)

/-- What is written of a compact block. -/
def serBytesOf : List UInt8 :=
  serBlockHeader cmpctblock.header ++ (serUInt64 cmpctblock.nonce ++
    (serVector serShortID cmpctblock.shorttxids ++ serVector serPrefilled cmpctblock.prefilledtxn))

/-- Writing a compact block: a short id that does not fit throws. -/
def serialize : Except WriteError (List UInt8) :=
  if cmpctblock.shorttxids.any fun id => decide (0xffffffffffff < id.toNat) then
    .error .valueOutOfRange
  else .ok (serBytesOf cmpctblock)

def unserFields : Stream HeaderAndShortTxIDs := do
  let header ← unserBlockHeader
  let nonce ← unserUInt64
  let shorttxids ← unserVector unserShortID
  let prefilledtxn ← unserVector unserPrefilled
  pure { header, nonce, shorttxids, prefilledtxn }

def blockTxCount : ℕ :=
  cmpctblock.shorttxids.length + cmpctblock.prefilledtxn.length

def unserialize : Stream HeaderAndShortTxIDs := do
  let cmpctblock ← unserFields
  if 0xffff < blockTxCount cmpctblock then throw .indexesOverflowed else pure cmpctblock

structure BlockTransactionsRequest where
  blockhash : Uint256
  indexes : List UInt16
  deriving DecidableEq

variable (blockhash : Uint256)

/-- The request for missing transactions; `push_back` narrows their
positions. -/
def BlockTransactionsRequest.ofMissing (missing : List ℕ) : BlockTransactionsRequest where
  blockhash
  indexes := missing.map UInt16.ofNat

/-- `DifferenceFormatter::Ser` for one index after another. -/
def serDifferences : ℕ → List UInt16 → Except WriteError (List UInt8)
  | _, [] => .ok []
  | mShift, v :: indexes =>
    if v.toNat < mShift ∨ 2 ^ 64 - 1 ≤ v.toNat then .error .differentialOverflow
    else (serDifferences (v.toNat + 1) indexes).map (writeCompactSize (v.toNat - mShift) ++ ·)

/-- `DifferenceFormatter::Unser` for one index after another. -/
def unserDifferences : ℕ → ℕ → Stream (List UInt16)
  | 0, _ => pure []
  | size + 1, mShift => do
    let n ← readCompactSize true
    let mShift := (mShift + n) % 2 ^ 64
    if mShift < n ∨ 2 ^ 64 - 1 ≤ mShift ∨ 0xffff < mShift then throw .differentialOverflow
    else
      let indexes ← unserDifferences size (mShift + 1)
      pure (UInt16.ofNat mShift :: indexes)

def BlockTransactionsRequest.serialize (req : BlockTransactionsRequest) :
    Except WriteError (List UInt8) :=
  (serDifferences 0 req.indexes).map fun bytes =>
    serUint256 req.blockhash ++ (writeCompactSize req.indexes.length ++ bytes)

def BlockTransactionsRequest.unserialize : Stream BlockTransactionsRequest := do
  let blockhash ← unserUint256
  let size ← readCompactSize true
  let indexes ← unserDifferences size 0
  pure { blockhash, indexes }

/-! ## What it is for -/

/-- The compact block arrives as it was sent. -/
def Arrives : Prop :=
  ∃ bytes, serialize cmpctblock = .ok bytes ∧
    ∀ rest, unserialize (bytes ++ rest) = .ok (cmpctblock, rest)

/-- The request for missing transactions arrives with their positions. -/
def RequestArrives (missing : List ℕ) : Prop :=
  ∃ bytes req, (BlockTransactionsRequest.ofMissing blockhash missing).serialize = .ok bytes ∧
    (∀ rest, BlockTransactionsRequest.unserialize (bytes ++ rest) = .ok (req, rest)) ∧
      req.blockhash = blockhash ∧ req.indexes.map UInt16.toNat = missing

/-- **The block can be relayed**: it arrives for every nonce, and so does every request for
transactions of it. -/
structure Relayable (env : BlockEnv) (sipHash : BlockHeader → UInt64 → Uint256 → UInt64)
    (block : Block) : Prop where
  arrives : ∀ nonce, ∃ cmpctblock,
    ofBlock env sipHash nonce block = some cmpctblock ∧ Arrives cmpctblock
  requests : ∀ blockhash missing, missing.Pairwise (· < ·) →
    (∀ i ∈ missing, i < block.vtx.length) → RequestArrives blockhash missing

/-! ## The formats -/

theorem lawful_unserShortID : Lawful serShortID unserShortID fun id => id.toNat < 2 ^ 48 :=
  (lawful_readData shortTxIDsLength).iso
    (fun id h => ⟨h.trans_le (by decide), UInt64.ofNat_toNat⟩)
    (fun n h => by
      have hn : (UInt64.ofNat n).toNat = n :=
        UInt64.toNat_ofNat_of_lt' (lt_of_lt_of_le h (by decide))
      exact ⟨by rw [hn]; exact lt_of_lt_of_le h (by decide), hn⟩)

theorem lawful_unserIndex :
    Lawful (fun index : UInt16 => writeCompactSize index.toNat) unserIndex fun _ => True := by
  have hchecked : Lawful writeCompactSize (readCompactSize true >>= fun n =>
      if 0xffff < n then throw .compactSizeExceedsType else pure n) (· < 2 ^ 16) := by
    refine (lawful_readCompactSize true).guard _ fun n => ⟨fun hn => ?_, ?_⟩
    · exact ⟨⟨by omega, fun _ => by unfold maxSize; omega⟩, by omega⟩
    · omega
  exact hchecked.iso (fun index _ => ⟨index.toNat_lt, UInt16.ofNat_toNat⟩)
    (fun n h => ⟨trivial, UInt16.toNat_ofNat_of_lt' h⟩)

theorem lawful_unserPrefilled : Lawful serPrefilled unserPrefilled fun p => p.tx.Readable true := by
  refine lawful_unserIndex.total PrefilledTransaction.index fun _ => ?_
  refine (lawful_unserializeTransaction true).last PrefilledTransaction.tx ?_
    fun _ h => by simpa using h
  rintro _ ⟨h, rfl⟩
  exact ⟨h, rfl⟩

/-- What can be read of a compact block, before its transactions are
counted. -/
structure FieldsOk : Prop where
  shorttxids : cmpctblock.shorttxids.length ≤ maxSize
  ids : ∀ id ∈ cmpctblock.shorttxids, id.toNat < 2 ^ 48
  prefilledtxn : cmpctblock.prefilledtxn.length ≤ maxSize
  txs : ∀ p ∈ cmpctblock.prefilledtxn, p.tx.Readable true

variable {cmpctblock : HeaderAndShortTxIDs} {block : Block}

theorem unserFields_append (h : FieldsOk cmpctblock) (rest : List UInt8) :
    unserFields (serBytesOf cmpctblock ++ rest) = .ok (cmpctblock, rest) := by
  simp only [serBytesOf, append_assoc]
  rw [unserFields, bind_of_ok (lawful_unserBlockHeader.decode _ trivial _),
    bind_of_ok (lawful_unserUInt64.decode _ trivial _),
    bind_of_ok ((lawful_unserVector lawful_unserShortID).decode _ ⟨h.shorttxids, h.ids⟩ _),
    bind_of_ok ((lawful_unserVector lawful_unserPrefilled).decode _ ⟨h.prefilledtxn, h.txs⟩ _)]
  rfl

/-- **A compact block arrives exactly if its transactions can be counted with
16 bits.** -/
theorem arrives_iff (h : FieldsOk cmpctblock) :
    Arrives cmpctblock ↔ blockTxCount cmpctblock ≤ 0xffff := by
  have hser : serialize cmpctblock = .ok (serBytesOf cmpctblock) := by
    refine if_neg fun hany => ?_
    obtain ⟨id, hid, hlarge⟩ := any_eq_true.1 hany
    have := h.ids id hid
    have := of_decide_eq_true hlarge
    omega
  constructor
  · rintro ⟨bytes, hbytes, hread⟩
    rw [hser] at hbytes
    obtain rfl := Except.ok.inj hbytes
    by_contra hcount
    have hnone := hread []
    rw [unserialize, bind_of_ok (unserFields_append h []), if_pos (not_le.1 hcount)] at hnone
    exact absurd hnone (by rintro ⟨⟩)
  · intro hcount
    refine ⟨_, hser, fun rest => ?_⟩
    rw [unserialize, bind_of_ok (unserFields_append h rest), if_neg (not_lt.2 hcount)]
    rfl

/-! ## Requests -/

/-- Ascending indexes, from `mShift` on. -/
def AscendsFrom (mShift : ℕ) (indexes : List UInt16) : Prop :=
  (∀ v ∈ indexes, mShift ≤ v.toNat) ∧ (indexes.map UInt16.toNat).Pairwise (· < ·)

/-- **Ascending indexes are read back**, one difference after another. -/
theorem unserDifferences_append (mShift : ℕ) (indexes : List UInt16)
    (h : AscendsFrom mShift indexes) : ∃ bytes, serDifferences mShift indexes = .ok bytes ∧ ∀ rest,
      unserDifferences indexes.length mShift (bytes ++ rest) = .ok (indexes, rest) := by
  induction indexes generalizing mShift with
  | nil => exact ⟨[], rfl, fun rest => rfl⟩
  | cons v indexes ih =>
    have hv := v.toNat_lt
    have hle := h.1 v mem_cons_self
    obtain ⟨hlt, hrest⟩ := pairwise_cons.1 h.2
    obtain ⟨bytes, hbytes, hread⟩ := ih (v.toNat + 1) ⟨fun w hw =>
      hlt w.toNat (mem_map_of_mem hw), hrest⟩
    refine ⟨writeCompactSize (v.toNat - mShift) ++ bytes, ?_, fun rest => ?_⟩
    · rw [serDifferences, if_neg (by omega), hbytes]
      rfl
    · have hback : (mShift + (v.toNat - mShift)) % 2 ^ 64 = v.toNat := by omega
      rw [length_cons, unserDifferences, append_assoc,
        bind_of_ok ((lawful_readCompactSize true).decode _
          ⟨by omega, fun _ => by unfold maxSize; omega⟩ _), hback, if_neg (by omega),
        bind_of_ok (hread rest), UInt16.ofNat_toNat]
      rfl

/-- Requests arrive if the positions they name fit into 16 bits. -/
theorem requestArrives {blockhash : Uint256} {missing : List ℕ} (hsorted : missing.Pairwise (· < ·))
    (hlt : ∀ i ∈ missing, i < 2 ^ 16) : RequestArrives blockhash missing := by
  have hback : (missing.map UInt16.ofNat).map UInt16.toNat = missing := by
    rw [map_map]
    refine (map_congr_left fun i hi => ?_).trans (map_id missing)
    exact UInt16.toNat_ofNat_of_lt' (hlt i hi)
  obtain ⟨bytes, hbytes, hread⟩ := unserDifferences_append 0
    (missing.map UInt16.ofNat) ⟨fun _ _ => Nat.zero_le _, by rw [hback]; exact hsorted⟩
  have hlen : (missing.map UInt16.ofNat).length ≤ maxSize := by
    -- ascending numbers below a bound are no more than it
    have hnodup : missing.Nodup := hsorted.imp fun h => h.ne
    have hsub : missing ⊆ range (2 ^ 16) := fun i hi => mem_range.2 (hlt i hi)
    have hcard := (subperm_of_subset hnodup hsub).length_le
    rw [length_range] at hcard
    rw [length_map]
    exact hcard.trans (by decide)
  refine ⟨_, .ofMissing blockhash missing, congrArg (Except.map _) hbytes, fun rest => ?_, rfl, hback⟩
  simp only [BlockTransactionsRequest.ofMissing, append_assoc]
  rw [BlockTransactionsRequest.unserialize, bind_of_ok (lawful_unserUint256.decode _ trivial _),
    bind_of_ok ((lawful_readCompactSize true).decode _
      ⟨lt_of_le_of_lt hlen (by decide), fun _ => hlen⟩ _),
    bind_of_ok (hread rest)]
  rfl

/-! ## Blocks that pass the checks -/

theorem getBlockWeight_eq (block : Block) : getBlockWeight block =
    (serBlock true block).length := by
  rw [getBlockWeight, witnessScaleFactor, Nat.sub_self, mul_zero, zero_add]

/-- A transaction of a block that is not too heavy can be read. -/
theorem readable_of_weight (hweight : getBlockWeight block ≤ maxBlockWeight)
    {tx : Transaction} (htx : tx ∈ block.vtx) (hvin : tx.vin ≠ []) : tx.Readable true := by
  refine ⟨sized_of_length ?_, by rw [if_pos rfl]; exact fun h => absurd h hvin⟩
  have hle := length_serialize_le_block true htx
  rw [getBlockWeight_eq] at hweight
  exact (hle.trans hweight).trans (by decide)

section

variable (env : BlockEnv) (sipHash : BlockHeader → UInt64 → Uint256 → UInt64)

theorem ofBlock_of_checked (hbody : BodyChecked block)
    (hweight : getBlockWeight block ≤ maxBlockWeight) (nonce : UInt64) :
    ∃ cmpctblock, ofBlock env sipHash nonce block = some cmpctblock ∧ FieldsOk cmpctblock ∧
      blockTxCount cmpctblock = block.vtx.length := by
  obtain ⟨coinbase, rest, hvtx⟩ := exists_cons_of_ne_nil hbody.vtx
  have hmem : coinbase ∈ block.vtx := hvtx ▸ mem_cons_self
  have hcount := hbody.count
  rw [hvtx, length_cons] at hcount
  refine ⟨_, by rw [ofBlock, hvtx], ⟨?_, fun id hid => ?_, ?_, fun p hp => ?_⟩, ?_⟩
  · rw [length_map]
    unfold maxBlockWeight at hcount
    unfold maxSize
    omega
  · obtain ⟨tx, -, rfl⟩ := mem_map.1 hid
    exact lt_of_le_of_lt Nat.and_le_right (by decide)
  · exact show 1 ≤ maxSize by decide
  · obtain rfl := mem_singleton.1 hp
    exact readable_of_weight hweight hmem (checkTransaction_eq_ok (hbody.transactions _ hmem)).vin
  · rw [blockTxCount, hvtx, length_map]
    rfl

variable {env} {sipHash}

theorem relayable_iff_count (hbody : BodyChecked block)
    (hweight : getBlockWeight block ≤ maxBlockWeight) :
    Relayable env sipHash block ↔ block.vtx.length ≤ 0xffff := by
  have hcompact := ofBlock_of_checked env sipHash hbody hweight
  constructor
  · intro h
    obtain ⟨cmpctblock, hof, hfields, hcount⟩ := hcompact 0
    obtain ⟨cmpctblock', hof', harrives⟩ := h.arrives 0
    rw [hof] at hof'
    obtain rfl := Option.some.inj hof'
    exact hcount ▸ (arrives_iff hfields).1 harrives
  · intro hle
    refine ⟨fun nonce => ?_, fun blockhash missing hsorted hlt => ?_⟩
    · obtain ⟨cmpctblock, hof, hfields, hcount⟩ := hcompact nonce
      exact ⟨cmpctblock, hof, (arrives_iff hfields).2 (hcount ▸ hle)⟩
    · exact requestArrives hsorted fun i hi => lt_of_lt_of_le (hlt i hi) (by omega)

/-- **What can be relayed**: a block that passes the checks, exactly if it has fewer than `2 ^ 16`
transactions. -/
theorem relayable_iff {block block' block'' : MemBlock env} {pindexPrev : Option BlockIndex}
    (hcheck : checkBlock block true true = .ok block')
    (hcontext : contextualCheckBlock block' pindexPrev = .ok block'') :
    Relayable env sipHash block.toBlock ↔ block.vtx.length ≤ 0xffff := by
  obtain ⟨hok, hsame⟩ := checkBlock_eq_ok hcheck
  exact relayable_iff_count (bodyCheck_eq_ok.1 (blockCheck_eq_ok.1 hok).2.2)
    (hsame ▸ (contextualCheckBlock_eq_ok hcontext).2.1)

end

/-! ## A block with too many transactions

The hash of the example tells the transactions apart by the hash of their
first input, and takes the left one of two hashes: then the Merkle root of
distinct transactions is that of the first. -/

/-- The number that 32 bytes stand for. -/
def readHash (bytes : List UInt8) : Uint256 := BitVec.ofNat 256 (leValue (bytes.take 32))

def crowdedEnv : BlockEnv where
  hash bytes := if bytes.length = 64 then readHash bytes else readHash (bytes.drop 5)
  getPoWHash _ := 0
  params := blockParams .main

def smallTx (prevHash : Uint256) : Transaction where
  vin := [{ prevout := ⟨prevHash, 0⟩, scriptSig := [], nSequence := 0, scriptWitness := [] }]
  vout := [{ nValue := 0, scriptPubKey := [] }]
  version := 1
  nLockTime := 0

/-- The coinbase of the first block behind the genesis block. -/
def firstCoinbase : Transaction where
  vin := [{ prevout := ⟨0, OutPoint.nullIndex⟩, scriptSig := [0x51, 0], nSequence := 0
            scriptWitness := [] }]
  vout := [{ nValue := 0, scriptPubKey := [] }]
  version := 1
  nLockTime := 0

variable (n : ℕ)

def crowdedVtx : List Transaction :=
  firstCoinbase :: (List.range n).map fun i => smallTx (BitVec.ofNat 256 (i + 1))

/-- A block of `n` transactions and a coinbase. -/
def crowdedBlock : Block where
  header := { null with nBits := 0x1d00ffff }
  vtx := crowdedVtx n

theorem crowdedBlock_vtx : (crowdedBlock n).vtx = crowdedVtx n := rfl

variable {n : ℕ}

theorem length_crowdedVtx : (crowdedVtx n).length = n + 1 := by simp [crowdedVtx]

theorem forall_crowdedVtx {P : Transaction → Prop} (hcoinbase : P firstCoinbase)
    (hsmall : ∀ prevHash, P (smallTx prevHash)) : ∀ tx ∈ crowdedVtx n, P tx := by
  intro tx htx
  rcases mem_cons.1 htx with rfl | htx
  · exact hcoinbase
  · obtain ⟨i, -, rfl⟩ := mem_map.1 htx
    exact hsmall _

theorem crowdedVtx_addressable (n : ℕ) : ∀ tx ∈ crowdedVtx n, tx.Addressable :=
  forall_crowdedVtx (by decide +kernel) fun _ => of_decide_eq_true rfl

/-! ### Its Merkle root -/

theorem readHash_serUint256 (v : Uint256) (rest : List UInt8) :
    readHash (serUint256 v ++ rest) = v := by
  have hlen : (serUint256 v).length = 32 := length_leBytes ..
  rw [readHash, ← hlen, take_left, serUint256, leValue_leBytes v.isLt, BitVec.ofNat_toNat,
    BitVec.setWidth_eq]

theorem crowdedEnv_hash (bytes : List UInt8) : crowdedEnv.hash bytes =
    if bytes.length = 64 then readHash bytes else readHash (bytes.drop 5) := rfl

theorem hashPair_crowdedEnv : hashPair crowdedEnv.hash = fun a _ => a := by
  funext a b
  have hlen : (serUint256 a ++ serUint256 b).length = 64 := by simp [serUint256]
  rw [hashPair, crowdedEnv_hash, if_pos hlen, readHash_serUint256]

variable (prevHash : Uint256)

theorem length_smallTx (allowWitness : Bool) :
    (serializeTransaction allowWitness (smallTx prevHash)).length = 60 := by
  rw [serializeTransaction_of_not_hasWitness rfl, length_serialize_false, length_serVector]
  simp only [length_serTxIn]
  rfl

theorem getHash_smallTx : (smallTx prevHash).getHash crowdedEnv.hash = prevHash := by
  have hfront : (serializeTransaction false (smallTx prevHash)).drop 5 = serUint256 prevHash ++
      (serUInt32 0 ++ (serBytes [] ++ serUInt32 0) ++
        (serVector serTxOut [{ nValue := 0, scriptPubKey := [] }] ++ serUInt32 0)) := by
    rw [serializeTransaction_false]
    simp [smallTx, stripWitness, serVector]
    rfl
  rw [getHash, crowdedEnv_hash, if_neg (by rw [length_smallTx]; decide), hfront,
    readHash_serUint256]

theorem getHash_firstCoinbase : firstCoinbase.getHash crowdedEnv.hash = 0 := by decide +kernel

section

variable {H : Type} [DecidableEq H]

/-- **The root is the first leaf**, where the left hash is taken and no two
leaves are the same. -/
theorem merkleLoop_left {fuel : ℕ} {a : H} {l : List H} (hnodup : (a :: l).Nodup)
    (hfuel : (a :: l).length ≤ fuel) :
    merkleLoop (fun a _ => a) fuel (a :: l) false = ([a], false) := by
  induction fuel generalizing l with
  | zero => simp at hfuel
  | succ fuel ih =>
    rw [merkleLoop, mutatedLevel_of_nodup hnodup]
    cases l with
    | nil => rfl
    | cons b l =>
      have hlen := length_nextLevel (fun a _ : H => a) (a :: b :: l)
      have hsub : (nextLevel (fun a _ => a) (a :: b :: l)).Sublist (a :: b :: l) :=
        map_fst_pairs_sublist _
      refine ih (hsub.nodup hnodup) ?_
      change (nextLevel (fun a _ => a) (a :: b :: l)).length ≤ fuel
      simp only [length_cons] at hfuel hlen ⊢
      omega

end

theorem merkleRootCheck_crowdedBlock (h : n < 2 ^ 32) :
    merkleRootCheck crowdedEnv.hash (crowdedBlock n) = .ok () := by
  have hleaves : (crowdedBlock n).leaves crowdedEnv.hash =
      0 :: (range n).map fun i => BitVec.ofNat 256 (i + 1) := by
    rw [Block.leaves, crowdedBlock, crowdedVtx, map_cons, getHash_firstCoinbase, map_map]
    refine congrArg _ (map_congr_left fun i _ => ?_)
    exact getHash_smallTx _
  have hnodup : ((0 : Uint256) :: (range n).map fun i => BitVec.ofNat 256 (i + 1)).Nodup := by
    have hval : ∀ i < n, (BitVec.ofNat 256 (i + 1)).toNat = i + 1 := fun i hi => by
      exact Nat.mod_eq_of_lt (by omega)
    refine nodup_cons.2 ⟨fun hmem => ?_, ?_⟩
    · obtain ⟨i, hi, heq⟩ := mem_map.1 hmem
      have := congrArg BitVec.toNat heq
      rw [hval i (mem_range.1 hi)] at this
      exact absurd this (by simp)
    · refine List.Nodup.map_on (fun i hi j hj heq => ?_) nodup_range
      have := congrArg BitVec.toNat heq
      rw [hval i (mem_range.1 hi), hval j (mem_range.1 hj)] at this
      omega
  have hroot : blockMerkleRoot crowdedEnv.hash (crowdedBlock n) = (0, false) := by
    rw [blockMerkleRoot, hleaves, hashPair_crowdedEnv, computeMerkleRoot,
      merkleLoop_left hnodup le_rfl]
    rfl
  rw [merkleRootCheck, hroot]
  rfl

/-! ### Its other checks -/

theorem not_isCoinBase_smallTx (prevHash : Uint256) : (smallTx prevHash).isCoinBase = false := by
  simp [isCoinBase, smallTx, OutPoint.isNull, OutPoint.nullIndex]

theorem checkTransaction_smallTx (prevHash : Uint256) :
    checkTransaction (smallTx prevHash) = .ok () := by
  have hsize : ¬ (serializeTransaction false (smallTx prevHash)).length * witnessScaleFactor >
      maxBlockWeight := by
    rw [length_smallTx]
    decide
  have hprev : checkPrevouts (smallTx prevHash) = .ok () := by
    rw [checkPrevouts, if_neg (by simp [not_isCoinBase_smallTx])]
    simp [smallTx, OutPoint.isNull, OutPoint.nullIndex]
  rw [checkTransaction, if_neg hsize]
  exact hprev

theorem length_crowdedBlock (n : ℕ) (allowWitness : Bool) :
    (serBlock allowWitness (crowdedBlock n)).length =
      80 + (writeCompactSize (n + 1)).length + 62 + 60 * n := by
  have hcoinbase : (serializeTransaction allowWitness firstCoinbase).length = 62 := by
    cases allowWitness <;> decide +kernel
  have hsum : ((crowdedVtx n).map fun tx => (serializeTransaction allowWitness tx).length).sum =
      62 + 60 * n := by
    rw [crowdedVtx, map_cons, sum_cons, hcoinbase, map_map]
    have hsame : ((range n).map ((fun tx => (serializeTransaction allowWitness tx).length) ∘
        fun i => smallTx (BitVec.ofNat 256 (i + 1)))) = (range n).map fun _ => 60 :=
      map_congr_left fun i _ => length_smallTx _ _
    rw [hsame, map_const', sum_replicate, length_range, mul_comm]
    rfl
  rw [serBlock, length_append, length_serBlockHeader, length_serVector, crowdedBlock_vtx,
    length_crowdedVtx]
  omega

theorem length_crowdedBlock_le (h : n ≤ 500000) (allowWitness : Bool) :
    (serBlock allowWitness (crowdedBlock n)).length ≤ maxBlockWeight := by
  have hcount : (writeCompactSize (n + 1)).length ≤ 9 := by
    unfold writeCompactSize
    repeat' split
    all_goals simp
  rw [length_crowdedBlock]
  unfold maxBlockWeight
  omega

theorem bodyCheck_crowdedBlock (h : n ≤ 500000) : bodyCheck (crowdedBlock n) = .ok () := by
  refine bodyCheck_eq_ok.2
    ⟨cons_ne_nil _ _, ?_, length_crowdedBlock_le h false, ?_,
      forall_crowdedVtx (by decide +kernel) checkTransaction_smallTx, ?_⟩
  · rw [crowdedBlock_vtx, length_crowdedVtx]
    unfold maxBlockWeight
    omega
  · have hrest : ((range n).map fun i => smallTx (BitVec.ofNat 256 (i + 1))).any
        isCoinBase = false := by
      refine any_eq_false.2 fun tx htx => ?_
      obtain ⟨i, -, rfl⟩ := mem_map.1 htx
      simp [not_isCoinBase_smallTx]
    have hcb : firstCoinbase.isCoinBase = true := by decide
    rw [coinbaseCheck, crowdedBlock, crowdedVtx]
    dsimp only
    rw [if_neg (by simp [hcb]), hrest, if_neg (by simp)]
  · have hzero : ∀ tx ∈ crowdedVtx n, getLegacySigOpCount tx = 0 :=
      forall_crowdedVtx (by decide +kernel) fun _ => rfl
    rw [crowdedBlock_vtx, sum_eq_zero (forall_mem_map.2 hzero)]
    decide

theorem crowdedBlock_no_witness (n : ℕ) : noWitnessCheck (crowdedBlock n) = .ok () := by
  have hnone : ∀ tx ∈ crowdedVtx n, ¬ hasWitness tx.vin = true :=
    forall_crowdedVtx (by decide) fun _ => by simp [smallTx, hasWitness]
  exact if_neg (ne_true_of_eq_false (any_eq_false.2 hnone))

def crowdedMemBlock (n : ℕ) : MemBlock crowdedEnv :=
  .fresh crowdedEnv (crowdedBlock n) (crowdedVtx_addressable n)

theorem crowdedMemBlock_toBlock (n : ℕ) : (crowdedMemBlock n).toBlock = crowdedBlock n := rfl

theorem checkWitnessMalleation_crowded {block : MemBlock crowdedEnv}
    (h : block.toBlock = crowdedBlock n) :
    ∃ block', checkWitnessMalleation block true = .ok block' ∧ block'.toBlock = block.toBlock := by
  have hindex : getWitnessCommitmentIndex block.toBlock = none := by
    rw [h]
    rfl
  have hmalleation : witnessMalleationCheck crowdedEnv.hash block.toBlock true = .ok () := by
    unfold witnessMalleationCheck
    rw [h]
    exact crowdedBlock_no_witness n
  unfold checkWitnessMalleation
  rw [if_pos rfl]
  split
  · exact ⟨block, rfl, rfl⟩
  · exact ⟨_, passWith_of_ok hmalleation, by split <;> rfl⟩

theorem contextualCheckBlock_crowded (hn : n ≤ 500000) {block : MemBlock crowdedEnv}
    (h : block.toBlock = crowdedBlock n) :
    ∃ block', contextualCheckBlock block (some mainGenesis) = .ok block' := by
  have hvtx : block.vtx = crowdedVtx n := congrArg Block.vtx h
  have hfinal : (block.vtx.all fun tx => isFinalTx tx 1 mainGenesis.medianTimePast) = true := by
    rw [hvtx]
    exact all_eq_true.2 (forall_crowdedVtx rfl fun _ => rfl)
  have hheight : heightCheck block 1 = .ok () := by
    unfold heightCheck
    rw [hvtx]
    rfl
  obtain ⟨block', hblock', hsame⟩ := checkWitnessMalleation_crowded h
  have hweight : ¬ getBlockWeight block'.toBlock > maxBlockWeight := by
    rw [hsame, h, getBlockWeight_eq]
    exact not_lt.2 (length_crowdedBlock_le hn true)
  refine ⟨block', ?_⟩
  change (if _ then _ else _) = _
  rw [if_neg (by rw [show heightAfter (some mainGenesis) = 1 from rfl, hfinal]; simp)]
  change (heightCheck block 1 >>= fun _ => checkWitnessMalleation block true >>= _) = _
  rw [hheight, hblock']
  exact if_neg hweight

/-- The block passes the checks on the main network, on top of the genesis
block. -/
theorem crowdedBlock_accepted (hn : n ≤ 500000) :
    ∃ block' block'', checkBlock (crowdedMemBlock n) true true = .ok block' ∧
      contextualCheckBlock block' (some mainGenesis) = .ok block'' := by
  have hheader : checkBlockHeader crowdedEnv.getPoWHash crowdedEnv.params.toParams
      (crowdedBlock n).header = .ok () := by
    change checkBlockHeader crowdedEnv.getPoWHash crowdedEnv.params.toParams
      { null with nBits := 0x1d00ffff } = .ok ()
    decide +kernel
  have hok : blockCheck crowdedEnv (crowdedBlock n) true true = .ok () :=
    blockCheck_eq_ok.2 ⟨fun _ => hheader, fun _ => merkleRootCheck_crowdedBlock (by omega),
      bodyCheck_crowdedBlock hn⟩
  obtain ⟨block', hcheck, hsame⟩ := checkBlock_fresh hok
  obtain ⟨block'', hcontext⟩ := contextualCheckBlock_crowded hn hsame
  exact ⟨block', block'', hcheck, hcontext⟩

/-- With a transaction besides its coinbase it can be relayed. -/
theorem crowdedBlock_one_relayable :
    Relayable crowdedEnv (fun _ _ _ => 0) (crowdedMemBlock 1).toBlock := by
  obtain ⟨block', block'', hcheck, hcontext⟩ := crowdedBlock_accepted (n := 1) (by decide)
  exact (relayable_iff hcheck hcontext).2 (by decide)

/-- With `2 ^ 16` of them its compact form is not read. -/
theorem not_relayable_of_crowded (hn : n ≤ 500000) (hmany : 0xffff ≤ n)
    (sipHash : BlockHeader → UInt64 → Uint256 → UInt64) :
    ¬ Relayable crowdedEnv sipHash (crowdedMemBlock n).toBlock := by
  have hweight : getBlockWeight (crowdedBlock n) ≤ maxBlockWeight := by
    rw [getBlockWeight_eq]
    exact length_crowdedBlock_le hn true
  rw [crowdedMemBlock_toBlock, relayable_iff_count (bodyCheck_eq_ok.1 (bodyCheck_crowdedBlock hn))
    hweight, crowdedBlock_vtx, length_crowdedVtx]
  omega

/-- **An accepted block that cannot be relayed.** -/
theorem crowdedBlock_not_relayable :
    ∃ block' block'', checkBlock (crowdedMemBlock 65536) true true = .ok block' ∧
      contextualCheckBlock block' (some mainGenesis) = .ok block'' ∧
        ∀ sipHash, ¬ Relayable crowdedEnv sipHash (crowdedMemBlock 65536).toBlock := by
  have hn : 65536 ≤ 500000 := by omega
  obtain ⟨block', block'', hcheck, hcontext⟩ := crowdedBlock_accepted hn
  exact ⟨block', block'', hcheck, hcontext, not_relayable_of_crowded hn (by omega)⟩

/-! ## Whole blocks -/

def unserBlock (allowWitness : Bool) : Stream Block := do
  let header ← unserBlockHeader
  let vtx ← unserVector (unserializeTransaction allowWitness)
  pure { header, vtx }

theorem lawful_unserBlock (allowWitness : Bool) :
    Lawful (serBlock allowWitness) (unserBlock allowWitness) fun block =>
      block.vtx.length ≤ maxSize ∧ ∀ tx ∈ block.vtx, tx.Readable allowWitness := by
  refine lawful_unserBlockHeader.total Block.header fun _ => ?_
  refine (lawful_unserVector (lawful_unserializeTransaction allowWitness)).last Block.vtx ?_
    fun _ h => ⟨⟨h, rfl⟩, rfl⟩
  rintro _ ⟨h, rfl⟩
  exact ⟨h, rfl⟩

/-- **A whole block arrives**: one that passes the checks is read back from its bytes, and no
other bytes are read as it. -/
theorem block_arrives {env : BlockEnv} {block block' block'' : MemBlock env}
    {pindexPrev : Option BlockIndex} (hcheck : checkBlock block true true = .ok block')
    (hcontext : contextualCheckBlock block' pindexPrev = .ok block'') (bytes rest : List UInt8) :
    unserBlock true bytes = .ok (block.toBlock, rest) ↔
      bytes = serBlock true block.toBlock ++ rest := by
  obtain ⟨hok, hsame⟩ := checkBlock_eq_ok hcheck
  have hbody := bodyCheck_eq_ok.1 (blockCheck_eq_ok.1 hok).2.2
  have hweight : getBlockWeight block.toBlock ≤ maxBlockWeight :=
    hsame ▸ (contextualCheckBlock_eq_ok hcontext).2.1
  refine ⟨fun h => ((lawful_unserBlock true).canonical _ _ _ h).2, ?_⟩
  rintro rfl
  refine (lawful_unserBlock true).decode _ ⟨?_, fun tx htx => ?_⟩ rest
  · have hcount := hbody.count
    unfold maxBlockWeight at hcount
    unfold maxSize
    omega
  · exact readable_of_weight hweight htx (checkTransaction_eq_ok (hbody.transactions tx htx)).vin

/-- So does the block whose compact form does not. -/
theorem block_arrives_crowded : ∃ block' block'',
    checkBlock (crowdedMemBlock 65536) true true = .ok block' ∧
      contextualCheckBlock block' (some mainGenesis) = .ok block'' ∧
        ∀ rest, unserBlock true (serBlock true (crowdedMemBlock 65536).toBlock ++ rest) =
          .ok ((crowdedMemBlock 65536).toBlock, rest) := by
  obtain ⟨block', block'', hcheck, hcontext⟩ := crowdedBlock_accepted (n := 65536) (by omega)
  exact ⟨block', block'', hcheck, hcontext, fun rest => (block_arrives hcheck hcontext _ rest).2 rfl⟩

end CompactBlocks

end Quarlcoin
