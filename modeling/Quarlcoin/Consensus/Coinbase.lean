import Quarlcoin.Common.Outcome
import Quarlcoin.Consensus.Mutation
/-!
# What a coinbase has to say

A coinbase begins with the height of its block. Of two such numbers neither begins the
other, so that coinbases at different heights differ (`coinbase_unique`).
`GenerateCoinbaseCommitment` makes the commitment that `CheckWitnessMalleation` looks for
(`generateCoinbaseCommitment_accepted`), but leaves a witness of the coinbase as it is,
which the check may refuse (`witnessedCoinbase_refused`).
-/

namespace Quarlcoin

open Arith Codec Merkle Serialize List Option BlockHeader Transaction Int64

/-! ## The height -/

theorem heightCheck_eq_ok {env : BlockEnv} {block : MemBlock env} {nHeight : ℕ}
    (hactive : deploymentActiveAt nHeight env.params.bip34Height = true)
    (h : heightCheck block nHeight = .ok ()) :
    ∃ coinbase txin, block.vtx.head? = some coinbase ∧ coinbase.vin.head? = some txin ∧
      Script.pushInt64 (ofNat nHeight) <+: txin.scriptSig := by
  rw [heightCheck, if_pos hactive] at h
  split at h
  · cases h
  rename_i txin htxin
  obtain ⟨coinbase, hcoinbase, htxin⟩ := bind_eq_some_iff.1 htxin
  split at h
  · rename_i hprefix
    exact ⟨coinbase, txin, hcoinbase, htxin, isPrefixOf_iff_prefix.1 hprefix⟩
  · cases h

/-- Two numbers of which one begins the other, or that begin one script, are the
same. -/
theorem eq_of_pushInt64_begins {a b : ℕ} (ha : 0 < a ∧ a < 2 ^ 63) (hb : 0 < b ∧ b < 2 ^ 63)
    {script : Script} (hpa : Script.pushInt64 (ofNat a) <+: script)
    (hpb : Script.pushInt64 (ofNat b) <+: script) : a = b := by
  obtain ⟨r, hr⟩ := hpa
  obtain ⟨s, hs⟩ := hpb
  exact (Script.separated_pushInt64 a b ha hb r s (hr.trans hs.symm)).1

/-- **Coinbases at different heights are different**, and so are their ids where the hash does not
collide on the two. -/
theorem coinbase_unique (hash : List UInt8 → Uint256) (getPoWHash : BlockHeader → Uint256)
    (chain : ChainType) (b c b' c' : MemBlock ⟨hash, getPoWHash, blockParams chain⟩)
    (prev prev' : Option BlockIndex) (hpos : 1 ≤ heightAfter prev)
    (hlt : heightAfter prev < heightAfter prev') (hmax : heightAfter prev' < 2 ^ 31)
    (hb : contextualCheckBlock b prev = .ok b') (hc : contextualCheckBlock c prev' = .ok c') :
    ¬ Script.pushInt64 (ofNat (heightAfter prev)) <+: Script.pushInt64 (ofNat (heightAfter prev')) ∧
      ¬ Script.pushInt64 (ofNat (heightAfter prev')) <+:
        Script.pushInt64 (ofNat (heightAfter prev)) ∧
      ∃ tx tx' txin txin', b.vtx.head? = some tx ∧ tx.vin.head? = some txin ∧
        c.vtx.head? = some tx' ∧ tx'.vin.head? = some txin' ∧ txin.scriptSig ≠ txin'.scriptSig ∧
        (Set.InjOn hash {serializeTransaction false tx, serializeTransaction false tx'} →
          tx.getHash hash ≠ tx'.getHash hash) := by
  have hactive (n : ℕ) (hn : 1 ≤ n) :
      deploymentActiveAt n (blockParams chain).bip34Height = true := by
    have hheight : (blockParams chain).bip34Height = 1 := by cases chain <;> rfl
    rw [deploymentActiveAt, hheight, decide_eq_true_eq]
    omega
  have hrange : 0 < heightAfter prev ∧ heightAfter prev < 2 ^ 63 := by omega
  have hrange' : 0 < heightAfter prev' ∧ heightAfter prev' < 2 ^ 63 := by omega
  obtain ⟨tx, txin, htx, htxin, hprefix⟩ :=
    heightCheck_eq_ok (hactive _ hpos) (contextualCheckBlock_eq_ok hb).2.2.2
  obtain ⟨tx', txin', htx', htxin', hprefix'⟩ :=
    heightCheck_eq_ok (hactive _ (by omega)) (contextualCheckBlock_eq_ok hc).2.2.2
  have hne : txin.scriptSig ≠ txin'.scriptSig := fun heq =>
    hlt.ne (eq_of_pushInt64_begins hrange hrange' hprefix (heq ▸ hprefix'))
  refine ⟨fun h => hlt.ne (eq_of_pushInt64_begins hrange hrange' h prefix_rfl),
    fun h => hlt.ne (eq_of_pushInt64_begins hrange hrange' prefix_rfl h),
    tx, tx', txin, txin', htx, htxin, htx', htxin', hne, fun hinj heq => hne ?_⟩
  have hser := hinj (.inl rfl) (.inr rfl) heq
  have hstrip := stripped_of_serialize_eq (b.addressable tx (mem_of_mem_head? htx))
    (c.addressable tx' (mem_of_mem_head? htx')) hser
  have hhead := congrArg (fun tx : Transaction => tx.vin.head?.map TxIn.scriptSig) hstrip
  simp only [strip, stripWitness, head?_map, htxin, htxin', map_some] at hhead
  exact some.inj hhead

/-- A block at height two, with a coinbase that commits to nothing. -/
def secondBlock : MemBlock lengthEnv :=
  MemBlock.fresh lengthEnv
    { header := null
      vtx := [{ committingCoinbase with
        vin := [{ prevout := ⟨0, OutPoint.nullIndex⟩, scriptSig := [0x52, 0, 0], nSequence := 0
                  scriptWitness := [] }]
        vout := [] }] }
    (by decide +kernel)

theorem secondBlock_differs : ∃ tx tx', committedBlock.vtx.head? = some tx ∧
    secondBlock.vtx.head? = some tx' ∧ tx.getHash lengthEnv.hash ≠ tx'.getHash lengthEnv.hash := by
  obtain ⟨b', hb, -⟩ := Ensures.exists_ok (P := fun _ => True)
    (r := contextualCheckBlock committedBlock (some mainGenesis)) (by decide +kernel)
  obtain ⟨c', hc, -⟩ := Ensures.exists_ok (P := fun _ => True)
    (r := contextualCheckBlock secondBlock (some { mainGenesis with nHeight := 1 }))
    (by decide +kernel)
  obtain ⟨-, -, tx, tx', -, -, htx, -, htx', -, -, hne⟩ := coinbase_unique lengthEnv.hash
    lengthEnv.getPoWHash .regtest committedBlock secondBlock b' c' _ _ (by decide) (by decide)
    (by decide) hb hc
  refine ⟨tx, tx', htx, htx', hne ?_⟩
  obtain rfl := some.inj htx
  obtain rfl := some.inj htx'
  -- the two serializations have different lengths
  rintro s (rfl | rfl) t (rfl | rfl) heq
  · rfl
  · exact absurd heq (by decide +kernel)
  · exact absurd heq (by decide +kernel)
  · rfl

/-! ## The commitment -/

section

variable (hash : List UInt8 → Uint256) (params : Consensus.BlockParams) (block : Block)
  (pindexPrev : Option BlockIndex)

/-- `UpdateUncommittedBlockStructures`; `none` where a coinbase has no input to
write to. -/
def updateUncommittedBlockStructures : Option Block :=
  match getWitnessCommitmentIndex block, block.vtx with
  | some _, coinbase :: rest =>
    if deploymentActiveAt (heightAfter pindexPrev) params.segwitHeight ∧
        ¬ hasWitness coinbase.vin then
      match coinbase.vin with
      | [] => none
      | txin :: vin =>
        let txin := { txin with scriptWitness := [List.replicate 32 0] }
        some { block with vtx := { coinbase with vin := txin :: vin } :: rest }
    else some block
  | _, _ => some block

/-- The output that `GenerateCoinbaseCommitment` adds. -/
def commitmentOutput : TxOut where
  nValue := 0
  scriptPubKey := commitmentHeader ++ serUint256
    (hash (serUint256 (blockWitnessMerkleRoot hash block) ++ List.replicate 32 0))

/-- `GenerateCoinbaseCommitment`; `none` for a block without transactions. -/
def generateCoinbaseCommitment : Option Block :=
  match getWitnessCommitmentIndex block, block.vtx with
  | none, [] => none
  | none, coinbase :: rest =>
    let coinbase := { coinbase with vout := coinbase.vout ++ [commitmentOutput hash block] }
    updateUncommittedBlockStructures params { block with vtx := coinbase :: rest } pindexPrev
  | some _, _ => updateUncommittedBlockStructures params block pindexPrev

/-- `block.hashMerkleRoot = BlockMerkleRoot(block)`. -/
def withMerkleRoot : Block :=
  { block with header := { block.header with hashMerkleRoot := (blockMerkleRoot hash block).1 } }

end

theorem commitmentLoop_concat {c : TxOut} (hc : isCommitment c) (vout : List TxOut) (o : ℕ)
    (commitpos : Option ℕ) : commitmentLoop o commitpos (vout ++ [c]) = some (o + vout.length) := by
  induction vout generalizing o commitpos with
  | nil => simp [commitmentLoop, hc]
  | cons txout vout ih =>
    rw [cons_append, commitmentLoop, ih, length_cons]
    congr 1
    omega

variable (hash : List UInt8 → Uint256)

theorem isCommitment_commitmentOutput (block : Block) :
    isCommitment (commitmentOutput hash block) = true := by
  simp [isCommitment, commitmentOutput, length_serUint256, minimumWitnessCommitment,
    commitmentHeader]

theorem generateCoinbaseCommitment_of_witness {hash : List UInt8 → Uint256}
    {params : Consensus.BlockParams} {block : Block} {pindexPrev : Option BlockIndex}
    {coinbase : Transaction} {rest : List Transaction} {commitpos : ℕ}
    (hvtx : block.vtx = coinbase :: rest) (hpos : getWitnessCommitmentIndex block = some commitpos)
    (hwitness : hasWitness coinbase.vin = true) :
    generateCoinbaseCommitment hash params block pindexPrev = some block := by
  simp [generateCoinbaseCommitment, updateUncommittedBlockStructures, hvtx, hpos, hwitness]

/-- The checks of a commitment that was added to `block`, in a block that has
the same transactions behind the coinbase. -/
theorem witnessMalleationCheck_of_commitmentOutput
    (block made : Block) {coinbase : Transaction} {txin : TxIn} {vin : List TxIn}
    {vout : List TxOut} (hvtx : made.vtx = coinbase :: block.vtx.tail)
    (hvin : coinbase.vin = txin :: vin) (hwitness : txin.scriptWitness = [List.replicate 32 0])
    (hvout : coinbase.vout = vout ++ [commitmentOutput hash block]) :
    getWitnessCommitmentIndex made = some vout.length ∧
      witnessMalleationCheck hash made true = .ok () := by
  have hpos : getWitnessCommitmentIndex made = some vout.length := by
    simp only [getWitnessCommitmentIndex, hvtx, hvout,
      commitmentLoop_concat (isCommitment_commitmentOutput hash block), Nat.zero_add]
  -- the root counts the coinbase as zero, so it is the root before the commitment
  have hroot : blockWitnessMerkleRoot hash made = blockWitnessMerkleRoot hash block := by
    simp only [blockWitnessMerkleRoot, Block.witnessLeaves, hvtx, tail_cons]
  have hscript : ((commitmentOutput hash block).scriptPubKey.drop 6).take 32 = serUint256
      (hash (serUint256 (blockWitnessMerkleRoot hash block) ++ replicate 32 0)) := by
    simp [commitmentOutput, commitmentHeader, take_of_length_le (length_serUint256 _).le]
  simp [witnessMalleationCheck, hpos, commitmentCheck, hvtx, hvin, hvout, hwitness, hroot, hscript]

/-- **Commitments that are made are accepted**, for a block whose coinbase has no commitment, and
no witness or the one that would be filled in; and making the commitment again changes nothing. -/
theorem generateCoinbaseCommitment_accepted
    (getPoWHash : BlockHeader → Uint256) (chain : ChainType) (block : Block)
    (pindexPrev : Option BlockIndex) (coinbase : Transaction) (rest : List Transaction)
    (hvtx : block.vtx = coinbase :: rest) (hcoinbase : coinbase.isCoinBase = true)
    (hnone : getWitnessCommitmentIndex block = none) (hwitness : hasWitness coinbase.vin = false ∨
      ∀ txin ∈ coinbase.vin, txin.scriptWitness = [replicate 32 0]) :
    ∃ made, generateCoinbaseCommitment hash (blockParams chain) block pindexPrev = some made ∧
      (∀ b : MemBlock ⟨hash, getPoWHash, blockParams chain⟩, b.toBlock = withMerkleRoot hash made →
        ∃ b', checkWitnessMalleation b true = .ok b') ∧
      generateCoinbaseCommitment hash (blockParams chain) made pindexPrev = some made ∧
      generateCoinbaseCommitment hash (blockParams chain) (withMerkleRoot hash made) pindexPrev =
        some (withMerkleRoot hash made) := by
  obtain ⟨txin, vin, hvin⟩ : ∃ txin vin, coinbase.vin = txin :: vin := by
    cases hvin : coinbase.vin with
    | nil => simp [isCoinBase, hvin] at hcoinbase
    | cons txin vin => exact ⟨txin, vin, rfl⟩
  have hactive : deploymentActiveAt (heightAfter pindexPrev) (blockParams chain).segwitHeight =
      true := decide_eq_true (Int.natCast_nonneg _)
  set out := commitmentOutput hash block
  have hpos : getWitnessCommitmentIndex { block with
      vtx := { coinbase with vout := coinbase.vout ++ [out] } :: rest } =
        some (0 + coinbase.vout.length) :=
    commitmentLoop_concat (isCommitment_commitmentOutput hash block) ..
  have hmade : generateCoinbaseCommitment hash (blockParams chain) block pindexPrev =
      some { block with vtx := { coinbase with
        vin := { txin with scriptWitness := [replicate 32 0] } :: vin
        vout := coinbase.vout ++ [out] } :: rest } := by
    rw [hvin] at hwitness hpos
    rcases hwitness with hwitness | hwitness
    · simp [generateCoinbaseCommitment, updateUncommittedBlockStructures, hnone, hvtx, hvin, hpos,
        hactive, hwitness, out]
    · -- the witness is there already, and stays
      have htxin := hwitness txin mem_cons_self
      have hhas : hasWitness (txin :: vin) = true := by simp [hasWitness, htxin]
      have hsame : { txin with scriptWitness := [replicate 32 0] } = txin := by rw [← htxin]
      rw [hsame]
      simp [generateCoinbaseCommitment, updateUncommittedBlockStructures, hnone, hvtx, hvin, hpos,
        hhas, out]
  have hchecks (header : BlockHeader) := witnessMalleationCheck_of_commitmentOutput hash block
    ⟨header, { coinbase with
      vin := { txin with scriptWitness := [replicate 32 0] } :: vin
      vout := coinbase.vout ++ [out] } :: rest⟩ (by rw [hvtx, tail_cons]) rfl rfl rfl
  refine ⟨_, hmade, fun b hb => ?_, generateCoinbaseCommitment_of_witness rfl (hchecks _).1 rfl,
    generateCoinbaseCommitment_of_witness rfl (hchecks _).1 rfl⟩
  have hcheck : witnessMalleationCheck hash b.toBlock true = .ok () := hb ▸ (hchecks _).2
  rw [checkWitnessMalleation, if_pos rfl]
  split
  · exact ⟨b, rfl⟩
  · exact ⟨_, passWith_of_ok hcheck⟩

/-- The block at height two gets a commitment behind its outputs. -/
theorem secondBlock_committed :
    ∃ made, generateCoinbaseCommitment lengthEnv.hash (blockParams .regtest) secondBlock.toBlock
        (some { mainGenesis with nHeight := 1 }) = some made ∧
      ∀ b : MemBlock lengthEnv, b.toBlock = withMerkleRoot lengthEnv.hash made →
        ∃ b', checkWitnessMalleation b true = .ok b' := by
  obtain ⟨made, hmade, haccepted, -⟩ := generateCoinbaseCommitment_accepted lengthEnv.hash
    lengthEnv.getPoWHash .regtest secondBlock.toBlock (some { mainGenesis with nHeight := 1 }) _ []
    rfl rfl rfl (.inl rfl)
  exact ⟨made, hmade, haccepted⟩

/-- A coinbase without a commitment, with a witness that is not a nonce. -/
def witnessedCoinbase : Transaction :=
  { committingCoinbase with
    vin := [{ prevout := ⟨0, OutPoint.nullIndex⟩, scriptSig := [0x51, 0], nSequence := 0
              scriptWitness := [[]] }]
    vout := [] }

/-- The witness stays, and the block with the commitment is refused. -/
theorem witnessedCoinbase_refused : witnessedCoinbase.isCoinBase = true ∧
      getWitnessCommitmentIndex ⟨null, [witnessedCoinbase]⟩ = none ∧
      ∃ (made : Block) (h : ∀ tx ∈ made.vtx, tx.Addressable),
        generateCoinbaseCommitment lengthEnv.hash (blockParams .regtest)
          ⟨null, [witnessedCoinbase]⟩ none = some made ∧
        checkWitnessMalleation (.fresh lengthEnv (withMerkleRoot lengthEnv.hash made) h) true =
          .error (.invalid ⟨.mutated, "bad-witness-nonce-size"⟩) := by
  refine ⟨rfl, rfl, ⟨null, [{ witnessedCoinbase with
    vout := [commitmentOutput lengthEnv.hash ⟨null, [witnessedCoinbase]⟩] }]⟩,
    by decide +kernel, rfl, ?_⟩
  rw [checkWitnessMalleation, if_pos rfl, if_neg (by simp [MemBlock.fresh])]
  exact passWith_of_error (by decide +kernel)

end Quarlcoin
