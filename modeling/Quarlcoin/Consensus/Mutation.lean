import Quarlcoin.Consensus.BlockCheck
/-!
# A header stands for one block

A header commits to the transactions without their witnesses, and through the coinbase to
those with them. Two blocks with one header that `IsBlockMutated` lets pass are the same,
where the hash does not collide on what is hashed for them (`eq_of_not_mutated`).
-/

namespace Quarlcoin

open Arith Codec Merkle Serialize List Option Prod Transaction

/-! ## What is hashed -/

/-- The byte strings that are hashed to check a block. -/
inductive Block.Hashes (hash : List UInt8 → Uint256) (block : Block) : List UInt8 → Prop
  /-- A transaction, with or without its witnesses. -/
  | transaction {tx : Transaction} (h : tx ∈ block.vtx) (allowWitness : Bool) :
    Hashes hash block (serializeTransaction allowWitness tx)
  /-- Two hashes in the tree of transactions. -/
  | node {p : Uint256 × Uint256} (h : Hashed (hashPair hash) (block.leaves hash) p) :
    Hashes hash block (serUint256 p.1 ++ serUint256 p.2)
  /-- Two hashes in the tree of witnesses. -/
  | witnessNode {p : Uint256 × Uint256} (h : Hashed (hashPair hash) (block.witnessLeaves hash) p) :
    Hashes hash block (serUint256 p.1 ++ serUint256 p.2)
  /-- The root of the tree of witnesses, with the nonce of the coinbase. -/
  | commitment {coinbase : Transaction} {txin : TxIn} {nonce : List UInt8}
    (htx : block.vtx.head? = some coinbase) (hin : coinbase.vin.head? = some txin)
    (hnonce : txin.scriptWitness = [nonce]) :
    Hashes hash block (serUint256 (blockWitnessMerkleRoot hash block) ++ nonce)

theorem separated_serUint256 : Separated serUint256 fun _ => True :=
  Separated.of_lawful lawful_unserUint256

theorem length_serUint256 (v : Uint256) : (serUint256 v).length = 32 := length_leBytes ..

theorem Transaction.getWitnessHash_eq (hash : List UInt8 → Uint256) (tx : Transaction) :
    tx.getWitnessHash hash = hash (serializeTransaction true tx) := by
  unfold getWitnessHash
  split_ifs with hhas
  · rfl
  · rw [serializeTransaction_of_not_hasWitness (Bool.eq_false_of_not_eq_true hhas), getHash]

variable {hash : List UInt8 → Uint256} {block : Block}

theorem injOn_hashPair {s : Set (List UInt8)} (hinj : Set.InjOn hash s)
    {pairs : Set (Uint256 × Uint256)} (h : ∀ p ∈ pairs, serUint256 p.1 ++ serUint256 p.2 ∈ s) :
    Set.InjOn (fun p : Uint256 × Uint256 => hashPair hash p.1 p.2) pairs := by
  rintro ⟨a, b⟩ hp ⟨c, d⟩ hq heq
  obtain ⟨rfl, hrest⟩ := separated_serUint256 a c trivial trivial _ _ (hinj (h _ hp) (h _ hq) heq)
  exact Prod.ext rfl (separated_serUint256.injective trivial trivial hrest)

/-! ## What a block has that is not mutated -/

/-- A block that starts with a coinbase and is not mutated passes both
checks. -/
theorem isBlockMutated_eq_false {env : BlockEnv} {block : MemBlock env}
    (hcb : block.vtx.head?.any isCoinBase = true) (h : isBlockMutated block true = some false) :
    merkleRootCheck env.hash block.toBlock = .ok () ∧
      witnessMalleationCheck env.hash block.toBlock true = .ok () := by
  unfold isBlockMutated at h
  cases hroot : checkMerkleRoot block with
  | error e =>
    rw [hroot] at h
    exact absurd h (by simp)
  | ok block' =>
    obtain ⟨hok, hsame⟩ := checkMerkleRoot_eq_ok hroot
    rw [hroot] at h
    dsimp only at h
    rw [hsame, if_neg (by simpa using hcb)] at h
    cases hwit : checkWitnessMalleation block' true with
    | error e =>
      rw [hwit] at h
      cases e <;> exact absurd h (by simp)
    | ok block'' => exact ⟨hok, hsame ▸ (checkWitnessMalleation_eq_ok hwit).1⟩

theorem merkleRootCheck_eq_ok (h : merkleRootCheck hash block = .ok ()) :
    blockMerkleRoot hash block = (block.header.hashMerkleRoot, false) := by
  unfold merkleRootCheck at h
  split at h
  · exact absurd h (by simp)
  rename_i hroot
  split at h
  · exact absurd h (by simp)
  rename_i hmut
  exact Prod.ext (not_not.1 hroot).symm (Bool.eq_false_of_not_eq_true hmut)

theorem noWitnessCheck_eq_ok (h : noWitnessCheck block = .ok ()) :
    ∀ tx ∈ block.vtx, hasWitness tx.vin = false := by
  unfold noWitnessCheck at h
  split at h
  · exact absurd h (by simp)
  · rename_i hany
    intro tx htx
    exact Bool.eq_false_of_not_eq_true fun hhas => hany (any_eq_true.2 ⟨tx, htx, hhas⟩)

/-- What a commitment that matches consists of. -/
structure Committed (hash : List UInt8 → Uint256) (block : Block) (commitpos : ℕ)
    (coinbase : Transaction) (rest : List Transaction) (txin : TxIn) (vin : List TxIn)
    (vout : TxOut) (nonce : List UInt8) : Prop where
  vtx_eq : block.vtx = coinbase :: rest
  vin_eq : coinbase.vin = txin :: vin
  vout_eq : coinbase.vout[commitpos]? = some vout
  stack_eq : txin.scriptWitness = [nonce]
  nonce_length : nonce.length = 32
  commits : serUint256 (hash (serUint256 (blockWitnessMerkleRoot hash block) ++ nonce)) =
    (vout.scriptPubKey.drop 6).take 32

theorem commitmentCheck_eq_ok {commitpos : ℕ} (h : commitmentCheck hash block commitpos = .ok ()) :
    ∃ coinbase rest txin vin vout nonce,
      Committed hash block commitpos coinbase rest txin vin vout nonce := by
  unfold commitmentCheck at h
  obtain ⟨coinbase, rest, hvtx⟩ : ∃ coinbase rest, block.vtx = coinbase :: rest := by
    cases hvtx : block.vtx with
    | nil =>
      rw [hvtx] at h
      exact absurd h (by simp)
    | cons coinbase rest => exact ⟨coinbase, rest, rfl⟩
  rw [hvtx] at h
  dsimp only at h
  split at h
  swap
  · exact absurd h (by simp)
  rename_i txin vin vout hvin hvout
  split at h
  swap
  · exact absurd h (by simp)
  rename_i nonce hstack
  split at h
  · exact absurd h (by simp)
  rename_i hlen
  split at h
  · exact absurd h (by simp)
  rename_i hcommits
  exact ⟨coinbase, rest, txin, vin, vout, nonce, hvtx, hvin, hvout, hstack, not_not.1 hlen,
    not_not.1 hcommits⟩

theorem Transaction.vin_eq_of_isCoinBase {tx : Transaction} {txin : TxIn} {vin : List TxIn}
    (h : tx.isCoinBase = true) (hvin : tx.vin = txin :: vin) : vin = [] := by
  cases vin with
  | nil => rfl
  | cons txin' vin => simp [isCoinBase, hvin] at h

/-! ## One header, one block -/

section

variable {env : BlockEnv} {b c : MemBlock env}

section

variable (hinj : Set.InjOn env.hash {s | b.Hashes env.hash s ∨ c.Hashes env.hash s})
include hinj

/-- **The tree of transactions** tells the transactions without their
witnesses. -/
theorem strip_eq_of_root_eq (hbne : b.vtx ≠ []) (hcne : c.vtx ≠ [])
    (hb64 : ∀ tx ∈ b.vtx, (serializeTransaction false tx).length ≠ 64)
    (hc64 : ∀ tx ∈ c.vtx, (serializeTransaction false tx).length ≠ 64)
    (hb : blockMerkleRoot env.hash b.toBlock = (b.header.hashMerkleRoot, false))
    (hc : blockMerkleRoot env.hash c.toBlock = (b.header.hashMerkleRoot, false)) :
    b.vtx.map strip = c.vtx.map strip := by
  have hleaves : b.leaves env.hash = c.leaves env.hash := by
    refine computeMerkleRoot_injective 0 (by simpa [Block.leaves] using hbne)
      (by simpa [Block.leaves] using hcne) (injOn_hashPair hinj ?_) (.inr ⟨?_, ?_, ?_⟩) ?_
    · exact fun p hp => hp.imp .node .node
    · exact congrArg snd hb
    · exact congrArg snd hc
    · -- a leaf among the hashes of pairs would have been taken of 64 bytes
      intro p hp
      have hpair : serUint256 p.1 ++ serUint256 p.2 ∈
          {s | b.Hashes env.hash s ∨ c.Hashes env.hash s} :=
        hp.imp Block.Hashes.node Block.Hashes.node
      have hlen : (serUint256 p.1 ++ serUint256 p.2).length = 64 := by
        rw [length_append, length_serUint256, length_serUint256]
      constructor
      · intro hmem
        obtain ⟨tx, htx, heq⟩ := mem_map.1 hmem
        exact hb64 tx htx (hinj (.inl (.transaction htx false)) hpair heq ▸ hlen)
      · intro hmem
        obtain ⟨tx, htx, heq⟩ := mem_map.1 hmem
        exact hc64 tx htx (hinj (.inr (.transaction htx false)) hpair heq ▸ hlen)
    · exact (congrArg fst hb).trans (congrArg fst hc).symm
  have hlen : b.vtx.length = c.vtx.length := by simpa [Block.leaves] using congrArg length hleaves
  refine ext_getElem (by simpa using hlen) fun i hi hi' => ?_
  rw [length_map] at hi hi'
  rw [getElem_map, getElem_map]
  have hhash : env.hash (serializeTransaction false b.vtx[i]) =
      env.hash (serializeTransaction false c.vtx[i]) := by
    have := congrArg (·[i]?) hleaves
    simpa [Block.leaves, hi, hi', getHash] using this
  refine stripped_of_serialize_eq (b.addressable _ (getElem_mem hi))
    (c.addressable _ (getElem_mem hi')) ?_
  exact hinj (.inl (.transaction (getElem_mem hi) false))
    (.inr (.transaction (getElem_mem hi') false)) hhash

/-- **The tree of witnesses** tells the witnesses of all transactions but the
first. -/
theorem tail_eq_of_witnessRoot_eq (hstrip : b.vtx.map strip = c.vtx.map strip)
    (hroot : blockWitnessMerkleRoot env.hash b.toBlock = blockWitnessMerkleRoot env.hash c.toBlock) :
    b.vtx.tail = c.vtx.tail := by
  have hlen : b.vtx.tail.length = c.vtx.tail.length := by
    have := congrArg length hstrip
    simp only [length_map] at this
    simp [this]
  have hleaves : b.witnessLeaves env.hash = c.witnessLeaves env.hash := by
    refine computeMerkleRoot_injective 0 (by simp [Block.witnessLeaves])
      (by simp [Block.witnessLeaves]) (injOn_hashPair hinj ?_) (.inl ?_) hroot
    · exact fun p hp => hp.imp .witnessNode .witnessNode
    · simpa [Block.witnessLeaves] using hlen
  have hhashes := (cons.inj hleaves).2
  refine ext_getElem hlen fun i hi hi' => ?_
  have hb := mem_of_mem_tail (getElem_mem hi)
  have hc := mem_of_mem_tail (getElem_mem hi')
  refine eq_of_serialize_witness_eq (b.addressable _ hb) (c.addressable _ hc) ?_ ?_
  · have := congrArg (fun l => l.tail[i]?) hstrip
    simpa only [← map_tail, getElem?_map, getElem?_eq_getElem hi,
      getElem?_eq_getElem hi', map_some, some.injEq] using this
  · have := congrArg (·[i]?) hhashes
    simp only [getElem?_map, getElem?_eq_getElem hi, getElem?_eq_getElem hi',
      map_some, some.injEq, getWitnessHash_eq] at this
    exact hinj (.inl (.transaction hb true)) (.inr (.transaction hc true)) this

end

variable (hstrip : b.vtx.map strip = c.vtx.map strip)
include hstrip

/-- The commitment is looked for among the outputs of the coinbase. -/
theorem getWitnessCommitmentIndex_eq :
    getWitnessCommitmentIndex b.toBlock = getWitnessCommitmentIndex c.toBlock := by
  unfold getWitnessCommitmentIndex
  cases hb : b.vtx with
  | nil =>
    rw [hb] at hstrip
    rw [map_eq_nil_iff.1 hstrip.symm]
  | cons coinbase rest =>
    rw [hb] at hstrip
    obtain ⟨coinbase', rest', hc, hhead, -⟩ := map_eq_cons_iff.1 hstrip.symm
    rw [hc]
    exact congrArg (commitmentLoop 0 none) (mk.inj hhead).2.1.symm

/-- Blocks that differ in their witnesses at most, and have none, are the
same. -/
theorem vtx_eq_of_no_witness
    (hb : ∀ tx ∈ b.vtx, hasWitness tx.vin = false) (hc : ∀ tx ∈ c.vtx, hasWitness tx.vin = false) :
    b.vtx = c.vtx := by
  have hself : ∀ {vtx : List Transaction}, (∀ tx ∈ vtx, hasWitness tx.vin = false) →
      vtx.map strip = vtx := by
    intro vtx h
    refine (map_congr_left fun tx htx => ?_).trans (map_id vtx)
    rw [strip, stripWitness_eq_self (h tx htx)]
    rfl
  rw [← hself hb, hstrip, hself hc]

omit hstrip

/-- Blocks that differ in their witnesses at most, and whose coinbases commit
to them, are the same. -/
theorem vtx_eq_of_committed
    (hinj : Set.InjOn env.hash {s | b.Hashes env.hash s ∨ c.Hashes env.hash s})
    (hbcb : b.vtx.head?.any isCoinBase = true) (hccb : c.vtx.head?.any isCoinBase = true)
    (hstrip : b.vtx.map strip = c.vtx.map strip) {commitpos : ℕ}
    (hb : commitmentCheck env.hash b.toBlock commitpos = .ok ())
    (hc : commitmentCheck env.hash c.toBlock commitpos = .ok ()) : b.vtx = c.vtx := by
  obtain ⟨coinbase, rest, txin, vin, vout, nonce, hb⟩ := commitmentCheck_eq_ok hb
  obtain ⟨coinbase', rest', txin', vin', vout', nonce', hc⟩ := commitmentCheck_eq_ok hc
  have hheads : coinbase.strip = coinbase'.strip := by
    rw [hb.vtx_eq, hc.vtx_eq] at hstrip
    exact (cons.inj hstrip).1
  obtain ⟨hvins, hvouts, hversion, hlock⟩ := mk.inj hheads
  obtain rfl : vout = vout' := by
    have := hb.vout_eq
    rw [hvouts, hc.vout_eq] at this
    exact (some.inj this).symm
  -- one output, so one hash of the root and the nonce
  have hbytes : serUint256 (blockWitnessMerkleRoot env.hash b.toBlock) ++ nonce =
      serUint256 (blockWitnessMerkleRoot env.hash c.toBlock) ++ nonce' := by
    refine hinj (.inl (.commitment (by rw [hb.vtx_eq]; rfl) (by rw [hb.vin_eq]; rfl) hb.stack_eq))
      (.inr (.commitment (by rw [hc.vtx_eq]; rfl) (by rw [hc.vin_eq]; rfl) hc.stack_eq)) ?_
    exact separated_serUint256.injective trivial trivial (hb.commits.trans hc.commits.symm)
  obtain ⟨hroot, rfl⟩ := separated_serUint256 _ _ trivial trivial _ _ hbytes
  have htail := tail_eq_of_witnessRoot_eq hinj hstrip hroot
  rw [hb.vtx_eq, hc.vtx_eq, tail_cons, tail_cons] at htail
  rw [hb.vtx_eq] at hbcb
  rw [hc.vtx_eq] at hccb
  obtain rfl := vin_eq_of_isCoinBase (by simpa using hbcb) hb.vin_eq
  obtain rfl := vin_eq_of_isCoinBase (by simpa using hccb) hc.vin_eq
  have hvin : coinbase.vin = coinbase'.vin := by
    refine eq_of_stripWitness_eq hvins ?_
    rw [hb.vin_eq, hc.vin_eq, map_singleton, map_singleton, hb.stack_eq, hc.stack_eq]
  have hcoinbase : coinbase = coinbase' := by
    cases coinbase
    simp_all
  rw [hb.vtx_eq, hc.vtx_eq, hcoinbase, htail]

/-- **One header, one block.** Two blocks with one header that start with a coinbase, have no
transaction of 64 bytes and are not reported as mutated are the same. -/
theorem eq_of_not_mutated
    (hinj : Set.InjOn env.hash {s | b.Hashes env.hash s ∨ c.Hashes env.hash s})
    (hheader : b.header = c.header) (hbcb : b.vtx.head?.any isCoinBase = true)
    (hccb : c.vtx.head?.any isCoinBase = true)
    (hb64 : ∀ tx ∈ b.vtx, (serializeTransaction false tx).length ≠ 64)
    (hc64 : ∀ tx ∈ c.vtx, (serializeTransaction false tx).length ≠ 64)
    (hb : isBlockMutated b true = some false) (hc : isBlockMutated c true = some false) :
    b.vtx = c.vtx := by
  obtain ⟨hbroot, hbwit⟩ := isBlockMutated_eq_false hbcb hb
  obtain ⟨hcroot, hcwit⟩ := isBlockMutated_eq_false hccb hc
  have hne : ∀ {block : MemBlock env}, block.vtx.head?.any isCoinBase = true →
      block.vtx ≠ [] := by
    rintro block hcb hnil
    rw [hnil] at hcb
    exact absurd hcb (by simp)
  have hstrip := strip_eq_of_root_eq hinj (hne hbcb) (hne hccb) hb64 hc64
    (merkleRootCheck_eq_ok hbroot) (hheader ▸ merkleRootCheck_eq_ok hcroot)
  unfold witnessMalleationCheck at hbwit hcwit
  rw [← getWitnessCommitmentIndex_eq hstrip] at hcwit
  cases hpos : getWitnessCommitmentIndex b.toBlock with
  | none =>
    rw [hpos] at hbwit hcwit
    exact vtx_eq_of_no_witness hstrip (noWitnessCheck_eq_ok hbwit) (noWitnessCheck_eq_ok hcwit)
  | some commitpos =>
    rw [hpos] at hbwit hcwit
    exact vtx_eq_of_committed hinj hbcb hccb hstrip hbwit hcwit

end

/-! ## A block with a commitment -/

/-- A hash that tells byte strings of different lengths apart. -/
def lengthEnv : BlockEnv where
  hash bytes := BitVec.ofNat 256 bytes.length
  getPoWHash _ := 0
  params := blockParams .regtest

/-- A coinbase that commits to no other transaction. -/
def committingCoinbase : Transaction where
  vin := [{ prevout := ⟨0, OutPoint.nullIndex⟩, scriptSig := [0x51, 0], nSequence := 0
            scriptWitness := [List.replicate 32 0] }]
  vout := [{ nValue := 0, scriptPubKey := commitmentHeader ++ serUint256 64 }]
  version := 1
  nLockTime := 0

def committedBlock : MemBlock lengthEnv :=
  MemBlock.fresh lengthEnv
    { header := { BlockHeader.null with hashMerkleRoot := 100 }, vtx := [committingCoinbase] }
    (by decide +kernel)

/-- A hash that tells strings of one length apart too. -/
def foldHash (bytes : List UInt8) : Uint256 :=
  BitVec.ofNat 256 (bytes.foldl (fun h b => (31 * h + b.toNat) % 65521) bytes.length)

def foldEnv : BlockEnv := { lengthEnv with hash := foldHash }

/-- A coinbase that commits to the witness of the other transaction. -/
def pairCoinbase : Transaction :=
  let root := hashPair foldHash 0 (witnessedTx.getWitnessHash foldHash)
  { committingCoinbase with
    vout := [{ nValue := 0
               scriptPubKey := commitmentHeader ++
                 serUint256 (foldHash (serUint256 root ++ List.replicate 32 0)) }] }

def pairRoot : Uint256 :=
  hashPair foldHash (pairCoinbase.getHash foldHash) (witnessedTx.getHash foldHash)

def pairBlock : MemBlock foldEnv :=
  MemBlock.fresh foldEnv
    { header := { BlockHeader.null with hashMerkleRoot := pairRoot }
      vtx := [pairCoinbase, witnessedTx] }
    (by decide +kernel)

/-- Over two leaves there is one pair. -/
theorem eq_of_hashed_pair {H : Type} {hash : H → H → H} {a b : H} {p : H × H}
    (h : Hashed hash [a, b] p) : p = (a, b) := by
  obtain ⟨i, hlong, hp⟩ := h
  have hlen : ∀ i, (levelAt hash [a, b] (i + 1)).length = 1 := by
    intro i
    induction i with
    | zero => rfl
    | succ i ih => rw [levelAt_succ, length_nextLevel, ih]
  cases i with
  | zero => exact mem_singleton.1 hp
  | succ i => exact absurd hlong (by rw [hlen i]; decide)

/-- What is hashed to check the block. -/
def pairStrings : List (List UInt8) :=
  [serializeTransaction false pairCoinbase, serializeTransaction true pairCoinbase,
    serializeTransaction false witnessedTx, serializeTransaction true witnessedTx,
    serUint256 (pairCoinbase.getHash foldHash) ++ serUint256 (witnessedTx.getHash foldHash),
    serUint256 0 ++ serUint256 (witnessedTx.getWitnessHash foldHash),
    serUint256 (blockWitnessMerkleRoot foldHash pairBlock.toBlock) ++ List.replicate 32 0]

theorem pairBlock_hashes {s : List UInt8} (h : pairBlock.Hashes foldHash s) : s ∈ pairStrings := by
  cases h with
  | transaction h allowWitness =>
    rcases mem_pair.1 h with rfl | rfl <;> cases allowWitness <;> simp [pairStrings]
  | node h =>
    rw [eq_of_hashed_pair h]
    simp [pairStrings]
  | witnessNode h =>
    rw [eq_of_hashed_pair h]
    simp [pairStrings]
  | commitment htx hin hnonce =>
    obtain rfl := some.inj htx
    obtain rfl := some.inj hin
    obtain ⟨rfl, -⟩ := cons.inj hnonce
    simp [pairStrings]

theorem pairBlock_injOn : Set.InjOn foldHash
    {s | pairBlock.Hashes foldHash s ∨ pairBlock.Hashes foldHash s} := by
  have hnodup : (pairStrings.map foldHash).Nodup := by decide +kernel
  exact fun s hs t ht heq => inj_on_of_nodup_map hnodup (pairBlock_hashes (or_self_iff.1 hs))
    (pairBlock_hashes (or_self_iff.1 ht)) heq

/-- The same block, when its Merkle root has been checked. -/
def rememberedBlock : MemBlock foldEnv :=
  { pairBlock with
    mCheckedMerkleRoot := true
    checkedMerkleRoot := fun _ => by decide +kernel }

theorem committedBlock_unique : isBlockMutated pairBlock true = some false ∧
      isBlockMutated rememberedBlock true = some false ∧ pairBlock.vtx = rememberedBlock.vtx := by
  have hfresh : isBlockMutated pairBlock true = some false := by decide +kernel
  have hremembered : isBlockMutated rememberedBlock true = some false := by decide +kernel
  have hsize : ∀ tx ∈ pairBlock.vtx, (serializeTransaction false tx).length ≠ 64 := by
    decide +kernel
  exact ⟨hfresh, hremembered, eq_of_not_mutated pairBlock_injOn rfl (by decide) (by decide)
    hsize hsize hfresh hremembered⟩

end Quarlcoin
