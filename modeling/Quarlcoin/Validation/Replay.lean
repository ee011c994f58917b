import Quarlcoin.Chain.Fork
import Quarlcoin.Coins.Database
import Quarlcoin.Validation.Undo
/-!
# Recovering from a flush that was cut short

`ReplayBlocks`: from the head blocks of a flush that did not come to its end, the blocks of
the old tip are disconnected down to where the two chains part, and those of the new tip are
applied from there on.

The coins are a mixture of the UTXO set of the block that the replay has come to and of the
one of the new tip: every write is made to both (`BlockStore.Connected.replayBlocks`).
-/

namespace Quarlcoin

open Arith Coins CoinsView UInt32

/-! ## The model -/

/-- What `ReplayBlocks` reads: the index, and the block and undo files. -/
structure BlockStore (ι : Type) extends BlockTree ι where
  getBlockHash : ι → Uint256
  /-- `m_block_index` -/
  lookupBlockIndex : Uint256 → Option ι
  /-- What `ReadRawBlock` gives, deserialised. -/
  readRawBlock : ι → Option Block
  readBlockUndo : ι → Option BlockUndo
  /-- `CBlockHeader::GetHash` -/
  getHash : BlockHeader → Uint256
  /-- `CheckProofOfWork`, on the hash for it and with the parameters of the network. -/
  checkProofOfWork : BlockHeader → Bool

/-- How `ReplayBlocks` ends without a database. -/
inductive ReplayError where
  /-- It returns `false`. -/
  | failed
  /-- `assert(pindexFork != nullptr)` and `Assert(pindexNew->GetAncestor(nHeight))` -/
  | assertion
  /-- The loop follows a null pointer. -/
  | nullPointer
  /-- An operation on the coins stops the program. -/
  | view (fault : Fault)
  /-- `BatchWrite` stops the program. -/
  | database (fault : DBFault)
  deriving DecidableEq

/-- The loop of `AddCoins` from output `i` on, with the check for overwritten
coins. -/
def addCoinsCheckedLoop (txid : Uint256) (fCoinbase : Bool) (nHeight : ℕ) :
    ℕ → List TxOut → CoinsView → Except Fault CoinsView
  | _, [], view => .ok view
  | i, txout :: vout, view => do
    let (view, overwrite) ← view.haveCoin ⟨txid, ofNat i⟩
    let view ← view.addCoin ⟨txid, ofNat i⟩ (createdCoin fCoinbase nHeight txout) overwrite
    addCoinsCheckedLoop txid fCoinbase nHeight (i + 1) vout view

def spendEach : List TxIn → CoinsView → Except Fault CoinsView
  | [], view => .ok view
  | txin :: vin, view => do
    let (view, _) ← view.spendCoin txin.prevout
    spendEach vin view

def rollforwardTx (hash : List UInt8 → Uint256) (nHeight : ℕ) (tx : Transaction)
    (view : CoinsView) : Except Fault CoinsView := do
  let view ← if tx.isCoinBase then .ok view else spendEach tx.vin view
  addCoinsCheckedLoop (tx.getHash hash) tx.isCoinBase nHeight 0 tx.vout view

def rollforwardTxs (hash : List UInt8 → Uint256) (nHeight : ℕ) :
    List Transaction → CoinsView → Except Fault CoinsView
  | [], view => .ok view
  | tx :: vtx, view => do
    let view ← rollforwardTx hash nHeight tx view
    rollforwardTxs hash nHeight vtx view

/-- A result of `DisconnectBlock`, where clean and unclean are both good. -/
def ofDisconnect (r : Except DisconnectError (CoinsView × Bool)) : Except ReplayError CoinsView :=
  match r with
  | .ok (view, _) => .ok view
  | .error .failed => .error .failed
  | .error (.view fault) => .error (.view fault)

namespace BlockStore

variable {ι : Type} (s : BlockStore ι)

/-- `ReadBlock`: the header must have its work and the hash of the index entry. -/
def readBlock (index : ι) : Option Block :=
  match s.readRawBlock index with
  | none => none
  | some block =>
    if ¬ s.checkProofOfWork block.header then none
    else if s.getHash block.header ≠ s.getBlockHash index then none
    else some block

variable {s} in
theorem getHash_of_readBlock {index : ι} {block : Block} (h : s.readBlock index = some block) :
    s.getHash block.header = s.getBlockHash index := by
  unfold readBlock at h
  split at h
  · cases h
  · split_ifs at h with _ hhash
    exact Option.some.inj h ▸ not_not.1 hhash

variable [DecidableEq ι] (hash : List UInt8 → Uint256)

def rollforwardBlock (pindex : ι) (view : CoinsView) : Except ReplayError CoinsView :=
  match s.readBlock pindex with
  | none => .error .failed
  | some block => (rollforwardTxs hash (s.nHeight pindex) block.vtx view).mapError .view

/-- A round of the loop that rolls back; the genesis block is never
disconnected. -/
def rollbackBlock (pindexOld : ι) (view : CoinsView) : Except ReplayError CoinsView :=
  if 0 < s.nHeight pindexOld then
    match s.readBlock pindexOld with
    | none => .error .failed
    | some block =>
      ofDisconnect (disconnectBlock hash block (s.getBlockHash pindexOld) (s.nHeight pindexOld)
        (((s.pprev pindexOld).map s.getBlockHash).getD 0) (s.readBlockUndo pindexOld) view)
  else .ok view

def rollbackLoop (pindexFork : Option ι) : ℕ → Option ι → CoinsView → Except ReplayError CoinsView
  | fuel, pindexOld, view =>
    if pindexOld = pindexFork then .ok view
    else
      match fuel, pindexOld with
      | fuel + 1, some i => do
        let view ← s.rollbackBlock hash i view
        rollbackLoop pindexFork fuel (s.pprev i) view
      | _, _ => .error .nullPointer

def rollforwardLoop (pindexNew : ι) : ℕ → ℕ → CoinsView → Except ReplayError CoinsView
  | 0, _, view => .ok view
  | n + 1, nHeight, view =>
    match s.getAncestor pindexNew nHeight with
    | none => .error .assertion
    | some pindex => do
      let view ← s.rollforwardBlock hash pindex view
      rollforwardLoop pindexNew n (nHeight + 1) view

/-- The old tip and the block where the chains part; both null where there was
no old tip. -/
def replayFork (hashOld : Uint256) (pindexNew : ι) : Except ReplayError (Option ι × Option ι) :=
  if hashOld = 0 then .ok (none, none)
  else
    match s.lookupBlockIndex hashOld with
    | none => .error .failed
    | some pindexOld =>
      match s.lastCommonAncestor pindexOld pindexNew with
      | none => .error .assertion
      | some pindexFork => .ok (some pindexOld, some pindexFork)

/-- `ReplayBlocks` up to the flush: the cache over the database. -/
def replayCache (db : CoinsViewDB) (pindexNew : ι) (pindexOld pindexFork : Option ι) :
    Except ReplayError CoinsView := do
  let nForkHeight := (pindexFork.map s.nHeight).getD 0
  let view ← s.rollbackLoop hash pindexFork ((pindexOld.map s.nHeight).getD 0 + 1) pindexOld
    (cache {} db.view)
  let view ← s.rollforwardLoop hash pindexNew (s.nHeight pindexNew - nForkHeight)
    (nForkHeight + 1) view
  .ok (view.setBestBlock (s.getBlockHash pindexNew))

/-- `ReplayBlocks`: the states on disk, one for every batch it writes. -/
def replayBlocks (full : List BatchOp → Bool) (db : CoinsViewDB) :
    Except ReplayError (List CoinsViewDB) :=
  match db.getHeadBlocks with
  | [] => .ok []
  | [hashNew, hashOld] =>
    match s.lookupBlockIndex hashNew with
    | none => .error .failed
    | some pindexNew => do
      let (pindexOld, pindexFork) ← s.replayFork hashOld pindexNew
      match ← s.replayCache hash db pindexNew pindexOld pindexFork with
      | cache c _ => (db.flush full c).mapError .database
      | base .. => .error (.view .noSuchLayer)
  | _ => .error .failed

end BlockStore

variable {coins : CoinMap} {txid : Uint256} {fCoinbase : Bool} {nHeight i : ℕ} {vout : List TxOut}

theorem StandsAt.skip {v₀ v : CoinsView} {coin : Coin} (h : StandsAt v₀ v coins)
    (hspent : coin.isSpent = false) (hun : coin.out.scriptPubKey.isUnspendable = true)
    (o : OutPoint) (overwrite : Bool) : v.addCoin o coin overwrite = .ok v := by
  obtain ⟨c, below, rfl⟩ := h.exists_cache
  rw [CoinsView.addCoin, CoinsViewCache.addCoin, if_neg (by simp [hspent]), if_pos hun]
  rfl

/-! ## Forwards

What a block writes does not depend on what the map had, so a mixture of the
UTXO set before it becomes one of the UTXO set after it. -/

/-- The map after the outputs are stored from number `i` on, over whatever is
there. -/
def storeOutputs (txid : Uint256) (fCoinbase : Bool) (nHeight : ℕ) :
    ℕ → List TxOut → CoinMap → CoinMap
  | _, [], coins => coins
  | i, txout :: vout, coins =>
    storeOutputs txid fCoinbase nHeight (i + 1) vout
      (if txout.scriptPubKey.isUnspendable then coins
       else Function.update coins ⟨txid, ofNat i⟩
        (some (createdCoin fCoinbase nHeight txout)))

theorem Creates.eq_storeOutputs {coins' : CoinMap}
    (h : Creates txid fCoinbase nHeight i vout coins coins') :
    coins' = storeOutputs txid fCoinbase nHeight i vout coins := by
  induction h with
  | nil => rfl
  | skip hun _ ih => rw [storeOutputs, if_pos hun, ih]
  | add _ hun _ _ ih => rw [storeOutputs, if_neg (by simp [hun]), ih]

section

variable {v₀ v : CoinsView} {m s s' t : CoinMap}

theorem addCoinsCheckedLoop_mixed (hvalues : ∀ txout ∈ vout, txout.isNull = false)
    (h : StandsAt v₀ v m) (hmixed : Mixed s t m) :
    ∃ v' m', addCoinsCheckedLoop txid fCoinbase nHeight i vout v = .ok v' ∧
      StandsAt v₀ v' m' ∧ Mixed (storeOutputs txid fCoinbase nHeight i vout s) t m' := by
  induction vout generalizing v m s i with
  | nil => exact ⟨v, m, rfl, h, hmixed⟩
  | cons txout vout ih =>
    rw [List.forall_mem_cons] at hvalues
    have hspent : (createdCoin fCoinbase nHeight txout).isSpent = false := hvalues.1
    obtain ⟨v₁, hhave, h₁⟩ := h.exists_haveCoin ⟨txid, ofNat i⟩
    cases hun : txout.scriptPubKey.isUnspendable with
    | true =>
      have hadd := h₁.skip hspent hun ⟨txid, ofNat i⟩ (m ⟨txid, ofNat i⟩).isSome
      obtain ⟨v', m', hrest, h', hmixed'⟩ := ih hvalues.2 h₁ hmixed
      refine ⟨v', m', ?_, h', by rw [storeOutputs, if_pos hun]; exact hmixed'⟩
      simp only [addCoinsCheckedLoop, hhave, hadd, ok_bind, hrest]
    | false =>
      obtain ⟨v₂, hadd, h₂⟩ := h₁.exists_addCoin hspent hun ⟨txid, ofNat i⟩
      obtain ⟨v', m', hrest, h', hmixed'⟩ := ih hvalues.2 h₂ (hmixed.update _ _)
      refine ⟨v', m', ?_, h', by rw [storeOutputs, if_neg (by simp [hun])]; exact hmixed'⟩
      simp only [addCoinsCheckedLoop, hhave, hadd, ok_bind, hrest]

theorem spendEach_mixed {vin : List TxIn} {vprevout : List Coin}
    (hspends : Spends s vin vprevout s') (h : StandsAt v₀ v m) (hmixed : Mixed s t m) :
    ∃ v' m', spendEach vin v = .ok v' ∧ StandsAt v₀ v' m' ∧ Mixed s' t m' := by
  induction hspends generalizing v m with
  | nil => exact ⟨v, m, rfl, h, hmixed⟩
  | @cons s s' txin vin coin vprevout _ _ ih =>
    obtain ⟨v₁, moved, hspend, h₁, -⟩ := h.exists_spendCoin txin.prevout
    obtain ⟨v', m', hrest, h', hmixed'⟩ := ih h₁ (hmixed.update _ _)
    refine ⟨v', m', ?_, h', hmixed'⟩
    simp only [spendEach, hspend, ok_bind, hrest]

/-- **The transactions behind the coinbase** are applied. -/
theorem rollforwardTxs_mixed {hash : List UInt8 → Uint256} {vtx : List Transaction}
    {vtxundo : List (List Coin)} (happlies : Applies hash nHeight vtx vtxundo s s')
    (hcb : ∀ tx ∈ vtx, tx.isCoinBase = false)
    (hvalues : ∀ tx ∈ vtx, ∀ txout ∈ tx.vout, txout.isNull = false)
    (h : StandsAt v₀ v m) (hmixed : Mixed s t m) :
    ∃ v' m', rollforwardTxs hash nHeight vtx v = .ok v' ∧ StandsAt v₀ v' m' ∧ Mixed s' t m' := by
  induction happlies generalizing v m with
  | nil => exact ⟨v, m, rfl, h, hmixed⟩
  | cons hspends hcreates _ ih =>
    rw [List.forall_mem_cons] at hcb hvalues
    obtain ⟨v₁, m₁, hspend, h₁, hmixed₁⟩ := spendEach_mixed hspends h hmixed
    obtain ⟨v₂, m₂, hadd, h₂, hmixed₂⟩ := addCoinsCheckedLoop_mixed hvalues.1 h₁ hmixed₁
    rw [← hcreates.eq_storeOutputs] at hmixed₂
    obtain ⟨v', m', hrest, h', hmixed'⟩ := ih hcb.2 hvalues.2 h₂ hmixed₂
    rw [hcb.1] at hadd
    refine ⟨v', m', ?_, h', hmixed'⟩
    simp only [rollforwardTxs, rollforwardTx, hcb.1, Bool.false_eq_true, if_false, hspend, ok_bind,
      hadd, hrest]

end

end Quarlcoin
