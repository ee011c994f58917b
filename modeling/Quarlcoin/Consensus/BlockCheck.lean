import Quarlcoin.Chain.Index
import Quarlcoin.Consensus.Merkle
import Quarlcoin.Consensus.TxCheck
import Quarlcoin.Primitives.Block
/-!
# Checks of a block

`CheckBlock`, `ContextualCheckBlock` and `IsBlockMutated`. A block in memory remembers which
checks it has passed; what it remembers is true (`MemBlock`), so that a check lets pass what
it would without memory (`checkBlock_eq_ok`).
-/

namespace Quarlcoin

open Arith Merkle Serialize Transaction Except

/-- The parameters the checks of a block read. -/
structure Consensus.BlockParams extends Consensus.Params where
  csvHeight : ℤ
  segwitHeight : ℤ

def blockParams (chain : ChainType) : Consensus.BlockParams :=
  { (createChainParams chain).consensus with csvHeight := 1, segwitHeight := 0 }

def maxBlockSigopsCost : ℕ := 640000

/-- The hash functions and the parameters of a node. -/
structure BlockEnv where
  hash : List UInt8 → Uint256
  getPoWHash : BlockHeader → Uint256
  params : Consensus.BlockParams

/-- How a check ends if the block does not pass it. -/
inductive CheckError where
  /-- `state.Invalid` -/
  | invalid (rejection : Rejection)
  /-- An assertion fails, or a vector is read outside its bounds. -/
  | fault
  deriving DecidableEq

/-! ## Merkle roots -/

section

variable (hash : List UInt8 → Uint256) (block : Block)

def Block.leaves : List Uint256 := block.vtx.map fun tx => tx.getHash hash

def blockMerkleRoot : Uint256 × Bool := computeMerkleRoot (hashPair hash) 0 (block.leaves hash)

/-- The leaves of the tree of witnesses: the coinbase counts as zero. -/
def Block.witnessLeaves : List Uint256 := 0 :: block.vtx.tail.map fun tx => tx.getWitnessHash hash

def blockWitnessMerkleRoot : Uint256 :=
  (computeMerkleRoot (hashPair hash) 0 (block.witnessLeaves hash)).1

/-- The body of `CheckMerkleRoot`. -/
def merkleRootCheck : Except Rejection Unit :=
  if block.header.hashMerkleRoot ≠ (blockMerkleRoot hash block).1 then
    .error ⟨.mutated, "bad-txnmrklroot"⟩
  else if (blockMerkleRoot hash block).2 then .error ⟨.mutated, "bad-txns-duplicate"⟩
  else .ok ()

/-! ## Witness commitments -/

def minimumWitnessCommitment : ℕ := 38

/-- The first bytes of a commitment. -/
def commitmentHeader : List UInt8 := [opReturn, 0x24, 0xaa, 0x21, 0xa9, 0xed]

def isCommitment (vout : TxOut) : Bool :=
  decide (minimumWitnessCommitment ≤ vout.scriptPubKey.length) &&
    vout.scriptPubKey.take 6 == commitmentHeader

def commitmentLoop : ℕ → Option ℕ → List TxOut → Option ℕ
  | _, commitpos, [] => commitpos
  | o, commitpos, vout :: rest =>
    commitmentLoop (o + 1) (if isCommitment vout then some o else commitpos) rest

/-- `GetWitnessCommitmentIndex`: the last commitment of the coinbase. -/
def getWitnessCommitmentIndex : Option ℕ :=
  match block.vtx with
  | [] => none
  | coinbase :: _ => commitmentLoop 0 none coinbase.vout

/-- The part of `CheckWitnessMalleation` for a block with a commitment. -/
def commitmentCheck (commitpos : ℕ) : Except CheckError Unit :=
  match block.vtx with
  | [] => .error .fault
  | coinbase :: _ =>
    match coinbase.vin, coinbase.vout[commitpos]? with
    | txin :: _, some vout =>
      match txin.scriptWitness with
      | [nonce] =>
        if nonce.length ≠ 32 then .error (.invalid ⟨.mutated, "bad-witness-nonce-size"⟩)
        else if serUint256 (hash (serUint256 (blockWitnessMerkleRoot hash block) ++ nonce)) ≠
            (vout.scriptPubKey.drop 6).take 32 then
          .error (.invalid ⟨.mutated, "bad-witness-merkle-match"⟩)
        else .ok ()
      | _ => .error (.invalid ⟨.mutated, "bad-witness-nonce-size"⟩)
    | _, _ => .error .fault

/-- The part of `CheckWitnessMalleation` for a block without one. -/
def noWitnessCheck : Except CheckError Unit :=
  if block.vtx.any fun tx => hasWitness tx.vin then
    .error (.invalid ⟨.mutated, "unexpected-witness"⟩)
  else .ok ()

/-- `CheckWitnessMalleation`, without its memory. -/
def witnessMalleationCheck (expectWitnessCommitment : Bool) : Except CheckError Unit :=
  if expectWitnessCommitment then
    match getWitnessCommitmentIndex block with
    | some commitpos => commitmentCheck hash block commitpos
    | none => noWitnessCheck block
  else noWitnessCheck block

end

/-! ## The block on its own -/

section

variable (env : BlockEnv) (block : Block)

/-- The check that the first transaction is the only coinbase. -/
def coinbaseCheck : Except Rejection Unit :=
  match block.vtx with
  | [] => .error ⟨.consensus, "bad-cb-missing"⟩
  | coinbase :: rest =>
    if ¬ coinbase.isCoinBase then .error ⟨.consensus, "bad-cb-missing"⟩
    else if rest.any isCoinBase then .error ⟨.consensus, "bad-cb-multiple"⟩
    else .ok ()

def transactionsCheck : List Transaction → Except Rejection Unit
  | [] => .ok ()
  | tx :: vtx =>
    match checkTransaction tx with
    | .error reason => .error ⟨.consensus, reason⟩
    | .ok () => transactionsCheck vtx

/-- The part of `CheckBlock` behind the header and the Merkle root. -/
def bodyCheck : Except Rejection Unit := do
  if block.vtx.isEmpty ∨ block.vtx.length * witnessScaleFactor > maxBlockWeight ∨
      (serBlock false block).length * witnessScaleFactor > maxBlockWeight then
    .error ⟨.consensus, "bad-blk-length"⟩
  else
    coinbaseCheck block
    transactionsCheck block.vtx
    let nSigOps := (block.vtx.map getLegacySigOpCount).sum % 2 ^ 32
    if nSigOps * witnessScaleFactor > maxBlockSigopsCost then
      .error ⟨.consensus, "bad-blk-sigops"⟩
    else .ok ()

/-- `CheckBlock`, without its memory. -/
def blockCheck (fCheckPOW fCheckMerkleRoot : Bool) : Except Rejection Unit := do
  if fCheckPOW then checkBlockHeader env.getPoWHash env.params.toParams block.header
  if fCheckMerkleRoot then merkleRootCheck env.hash block
  bodyCheck block

end

variable {ε : Type} {block : Block} {check : Except ε Unit}

theorem check_bind_eq_ok {a b : Except ε Unit} :
    (a >>= fun _ => b) = .ok () ↔ a = .ok () ∧ b = .ok () :=
  bind_eq_ok_iff.trans ⟨fun ⟨_, h⟩ => h, fun h => ⟨(), h⟩⟩

variable {fCheckPOW fCheckMerkleRoot : Bool} {α : Type}

theorem blockCheck_eq_ok {env : BlockEnv} :
    blockCheck env block fCheckPOW fCheckMerkleRoot = .ok () ↔ (fCheckPOW = true →
        checkBlockHeader env.getPoWHash env.params.toParams block.header = .ok ()) ∧
      (fCheckMerkleRoot = true → merkleRootCheck env.hash block = .ok ()) ∧
      bodyCheck block = .ok () := by
  unfold blockCheck
  rcases checkBlockHeader env.getPoWHash env.params.toParams block.header with _ | _ <;>
    rcases merkleRootCheck env.hash block with _ | _ <;>
      cases fCheckPOW <;> cases fCheckMerkleRoot <;> simp [bind, Except.bind]

theorem transactionsCheck_eq_ok {vtx : List Transaction} :
    transactionsCheck vtx = .ok () ↔ ∀ tx ∈ vtx, checkTransaction tx = .ok () := by
  induction vtx with
  | nil => simp [transactionsCheck]
  | cons tx vtx ih =>
    rw [transactionsCheck, List.forall_mem_cons]
    cases checkTransaction tx with
    | error e => simp
    | ok _ => simpa using ih

/-- What `CheckBlock` establishes of the transactions. -/
structure BodyChecked (block : Block) : Prop where
  vtx : block.vtx ≠ []
  count : block.vtx.length ≤ maxBlockWeight
  size : (serBlock false block).length ≤ maxBlockWeight
  coinbase : coinbaseCheck block = .ok ()
  transactions : ∀ tx ∈ block.vtx, checkTransaction tx = .ok ()
  sigops : (block.vtx.map getLegacySigOpCount).sum % 2 ^ 32 ≤ maxBlockSigopsCost

theorem bodyCheck_eq_ok : bodyCheck block = .ok () ↔ BodyChecked block := by
  unfold bodyCheck
  simp only [witnessScaleFactor, mul_one]
  constructor
  · intro h
    split at h
    · exact absurd h (by simp)
    rename_i hsize
    obtain ⟨hcb, hrest⟩ := check_bind_eq_ok.1 h
    obtain ⟨htxs, hsigops⟩ := check_bind_eq_ok.1 hrest
    split at hsigops
    · exact absurd hsigops (by simp)
    rename_i hlimit
    rw [not_or, not_or] at hsize
    exact ⟨by simpa using hsize.1, not_lt.1 hsize.2.1, not_lt.1 hsize.2.2, hcb,
      transactionsCheck_eq_ok.1 htxs, not_lt.1 hlimit⟩
  · intro h
    rw [if_neg (by
      rw [not_or, not_or]
      exact ⟨by simpa using h.vtx, not_lt.2 h.count, not_lt.2 h.size⟩)]
    refine check_bind_eq_ok.2 ⟨h.coinbase, check_bind_eq_ok.2
      ⟨transactionsCheck_eq_ok.2 h.transactions, if_neg (not_lt.2 h.sigops)⟩⟩

/-! ## Blocks in memory -/

/-- Go on from a check that has passed, with the proof that it has. -/
def passWith {ε α : Type} (check : Except ε Unit) (k : check = .ok () → α) : Except ε α :=
  match check, k with
  | .error e, _ => .error e
  | .ok (), k => .ok (k rfl)

theorem passWith_of_ok {k : check = .ok () → α} (h : check = .ok ()) :
    passWith check k = .ok (k h) := by
  subst h
  rfl

theorem passWith_of_error {k : check = .ok () → α} {e : ε} (h : check = .error e) :
    passWith check k = .error e := by
  subst h
  rfl

variable (env : BlockEnv)

/-- `CBlock`: the block and the checks it remembers. A flag that is set stands for a check that
passed. -/
structure MemBlock extends Block where
  fChecked : Bool
  mCheckedWitnessCommitment : Bool
  mCheckedMerkleRoot : Bool
  addressable : ∀ tx ∈ vtx, tx.Addressable
  checked : fChecked = true → blockCheck env toBlock true true = .ok ()
  checkedWitness : mCheckedWitnessCommitment = true →
    witnessMalleationCheck env.hash toBlock true = .ok ()
  checkedMerkleRoot : mCheckedMerkleRoot = true → merkleRootCheck env.hash toBlock = .ok ()

/-- A block as it was read, with nothing remembered. -/
def MemBlock.fresh (block : Block) (h : ∀ tx ∈ block.vtx, tx.Addressable) : MemBlock env where
  toBlock := block
  fChecked := false
  mCheckedWitnessCommitment := false
  mCheckedMerkleRoot := false
  addressable := h
  checked := by simp
  checkedWitness := by simp
  checkedMerkleRoot := by simp

section

variable {env : BlockEnv} (block : MemBlock env)

def checkMerkleRoot : Except Rejection (MemBlock env) :=
  if block.mCheckedMerkleRoot then .ok block
  else passWith (merkleRootCheck env.hash block.toBlock) fun h =>
    { block with mCheckedMerkleRoot := true, checkedMerkleRoot := fun _ => h }

/-- `CheckWitnessMalleation`; what is remembered is a commitment that
matches. -/
def checkWitnessMalleation (expectWitnessCommitment : Bool) : Except CheckError (MemBlock env) :=
  if expectWitnessCommitment then
    if block.mCheckedWitnessCommitment then .ok block
    else passWith (witnessMalleationCheck env.hash block.toBlock true) fun h =>
      if (getWitnessCommitmentIndex block.toBlock).isSome then
        { block with mCheckedWitnessCommitment := true, checkedWitness := fun _ => h }
      else block
  else passWith (witnessMalleationCheck env.hash block.toBlock false) fun _ => block

/-- What `CheckBlock` sets when it passes. -/
def MemBlock.remember (fCheckPOW fCheckMerkleRoot : Bool)
    (h : blockCheck env block.toBlock fCheckPOW fCheckMerkleRoot = .ok ()) : MemBlock env :=
  { block with
    fChecked := fCheckPOW && fCheckMerkleRoot
    mCheckedMerkleRoot := block.mCheckedMerkleRoot || fCheckMerkleRoot
    checked := by
      rintro hboth
      obtain ⟨rfl, rfl⟩ := Bool.and_eq_true_iff.1 hboth
      exact h
    checkedMerkleRoot := by
      rintro hor
      rcases Bool.or_eq_true_iff.1 hor with hflag | rfl
      · exact block.checkedMerkleRoot hflag
      · exact (blockCheck_eq_ok.1 h).2.1 rfl }

/-- `CheckBlock`. The memory of the Merkle root gives the answer of the check itself. -/
def checkBlock (fCheckPOW fCheckMerkleRoot : Bool) : Except Rejection (MemBlock env) :=
  if block.fChecked then .ok block
  else passWith (blockCheck env block.toBlock fCheckPOW fCheckMerkleRoot) fun h =>
    block.remember fCheckPOW fCheckMerkleRoot h

/-- `IsBlockMutated`; none where an assertion fails. -/
def isBlockMutated (checkWitnessRoot : Bool) : Option Bool :=
  match checkMerkleRoot block with
  | .error _ => some true
  | .ok block =>
    if ¬ (block.vtx.head?.any isCoinBase) then
      some (block.vtx.any fun tx => (serializeTransaction false tx).length == 64)
    else
      match checkWitnessMalleation block checkWitnessRoot with
      | .ok _ => some false
      | .error (.invalid _) => some true
      | .error .fault => none

/-! ## The block in its place -/

variable (pindexPrev : Option BlockIndex)

def heightAfter : ℕ :=
  match pindexPrev with
  | none => 0
  | some prev => prev.nHeight + 1

/-- `DeploymentActiveAfter`, also for the first block. -/
def deploymentActiveAt (nHeight : ℕ) (deploymentHeight : ℤ) : Bool := deploymentHeight ≤ nHeight

/-- The time that lock times are compared with. -/
def lockTimeCutoff : Except CheckError Int64 :=
  if deploymentActiveAt (heightAfter pindexPrev) env.params.csvHeight then
    match pindexPrev with
    | none => .error .fault
    | some prev => .ok prev.medianTimePast
  else .ok block.header.getBlockTime

/-- The rule that the coinbase starts with the height. -/
def heightCheck (nHeight : ℕ) : Except CheckError Unit :=
  if deploymentActiveAt nHeight env.params.bip34Height then
    match block.vtx.head?.bind fun tx => tx.vin.head? with
    | none => .error .fault
    | some txin =>
      if (Script.pushInt64 (Int64.ofNat nHeight)).isPrefixOf txin.scriptSig then .ok ()
      else .error (.invalid ⟨.consensus, "bad-cb-height"⟩)
  else .ok ()

def getBlockWeight (block : Block) : ℕ :=
  (serBlock false block).length * (witnessScaleFactor - 1) + (serBlock true block).length

def contextualCheckBlock : Except CheckError (MemBlock env) := do
  let nHeight := heightAfter pindexPrev
  let nLockTimeCutoff ← lockTimeCutoff block pindexPrev
  if ¬ block.vtx.all fun tx => isFinalTx tx nHeight nLockTimeCutoff then
    .error (.invalid ⟨.consensus, "bad-txns-nonfinal"⟩)
  else
    heightCheck block nHeight
    let block ← checkWitnessMalleation block
      (deploymentActiveAt nHeight env.params.segwitHeight)
    if getBlockWeight block.toBlock > maxBlockWeight then
      .error (.invalid ⟨.consensus, "bad-blk-weight"⟩)
    else .ok block

/-! ## Memory changes no answer -/

variable {block}

theorem passWith_eq_ok {ε : Type} {check : Except ε Unit} {k : check = .ok () → α} {a : α}
    (h : passWith check k = .ok a) : ∃ hok : check = .ok (), k hok = a := by
  cases check with
  | ok => exact ⟨rfl, ok.inj h⟩
  | error e => cases h

variable {block' : MemBlock env}

theorem checkMerkleRoot_eq_ok (h : checkMerkleRoot block = .ok block') :
    merkleRootCheck env.hash block.toBlock = .ok () ∧ block'.toBlock = block.toBlock := by
  unfold checkMerkleRoot at h
  split_ifs at h with hflag
  · obtain rfl := ok.inj h
    exact ⟨block.checkedMerkleRoot hflag, rfl⟩
  · obtain ⟨hok, rfl⟩ := passWith_eq_ok h
    exact ⟨hok, rfl⟩

theorem checkWitnessMalleation_eq_ok {expectWitnessCommitment : Bool}
    (h : checkWitnessMalleation block expectWitnessCommitment = .ok block') :
    witnessMalleationCheck env.hash block.toBlock expectWitnessCommitment = .ok () ∧
      block'.toBlock = block.toBlock := by
  unfold checkWitnessMalleation at h
  split at h
  · rename_i hexpect
    subst hexpect
    split at h
    · rename_i hflag
      obtain rfl := ok.inj h
      exact ⟨block.checkedWitness hflag, rfl⟩
    · obtain ⟨hok, rfl⟩ := passWith_eq_ok h
      refine ⟨hok, ?_⟩
      split <;> rfl
  · rename_i hexpect
    obtain rfl := Bool.eq_false_of_not_eq_true hexpect
    obtain ⟨hok, rfl⟩ := passWith_eq_ok h
    exact ⟨hok, rfl⟩

theorem checkBlock_eq_ok (h : checkBlock block fCheckPOW fCheckMerkleRoot = .ok block') :
    blockCheck env block.toBlock fCheckPOW fCheckMerkleRoot = .ok () ∧
      block'.toBlock = block.toBlock := by
  unfold checkBlock at h
  split_ifs at h with hflag
  · obtain rfl := ok.inj h
    obtain ⟨hheader, hroot, hbody⟩ := blockCheck_eq_ok.1 (block.checked hflag)
    exact ⟨blockCheck_eq_ok.2 ⟨fun _ => hheader rfl, fun _ => hroot rfl, hbody⟩, rfl⟩
  · obtain ⟨hok, rfl⟩ := passWith_eq_ok h
    exact ⟨hok, rfl⟩

theorem checkBlock_fresh {block : Block} {h : ∀ tx ∈ block.vtx, tx.Addressable}
    (hok : blockCheck env block fCheckPOW fCheckMerkleRoot = .ok ()) :
    ∃ block', checkBlock (MemBlock.fresh env block h) fCheckPOW fCheckMerkleRoot = .ok block' ∧
      block'.toBlock = block :=
  ⟨_, (if_neg (by simp [MemBlock.fresh])).trans (passWith_of_ok hok), rfl⟩

/-- What passes `ContextualCheckBlock` is not too heavy, and passes the checks
of its height and its witnesses. -/
theorem contextualCheckBlock_eq_ok {pindexPrev : Option BlockIndex}
    (h : contextualCheckBlock block pindexPrev = .ok block') :
    witnessMalleationCheck env.hash block.toBlock
        (deploymentActiveAt (heightAfter pindexPrev) env.params.segwitHeight) = .ok () ∧
      getBlockWeight block.toBlock ≤ maxBlockWeight ∧ block'.toBlock = block.toBlock ∧
      heightCheck block (heightAfter pindexPrev) = .ok () := by
  unfold contextualCheckBlock at h
  cases hcut : lockTimeCutoff block pindexPrev with
  | error e =>
    rw [hcut] at h
    exact absurd h (by rintro ⟨⟩)
  | ok cutoff =>
    rw [hcut] at h
    replace h : (if _ then _ else _) = _ := h
    split at h
    · exact absurd h (by simp)
    cases hheight : heightCheck block (heightAfter pindexPrev) with
    | error e =>
      rw [hheight] at h
      exact absurd h (by rintro ⟨⟩)
    | ok _ =>
      rw [hheight] at h
      cases hwit : checkWitnessMalleation block
          (deploymentActiveAt (heightAfter pindexPrev) env.params.segwitHeight) with
      | error e =>
        rw [hwit] at h
        exact absurd h (by rintro ⟨⟩)
      | ok block'' =>
        rw [hwit] at h
        obtain ⟨hok, hsame⟩ := checkWitnessMalleation_eq_ok hwit
        replace h : (if _ then _ else _) = _ := h
        split at h
        · exact absurd h (by simp)
        · rename_i hweight
          obtain rfl := ok.inj h
          rw [hsame] at hweight
          exact ⟨hok, not_lt.1 hweight, hsame, rfl⟩

end

end Quarlcoin
