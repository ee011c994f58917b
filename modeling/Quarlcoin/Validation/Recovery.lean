import Quarlcoin.Validation.Replay
/-!
# Recovery is exact

Whatever a flush between two connected blocks of a tree left behind, `ReplayBlocks` arrives
at the UTXO set of the new tip, also after replays whose own flush was cut short
(`BlockStore.replayBlocks_exact`).

It needs that no block overwrote a coin. The check of `ConnectBlock` sees to that on all
blocks but two, named by hashes of another chain. That no header of the tree has one of them
is a hypothesis about the hash (`BlockStore.NoRepeat`).
-/

namespace Quarlcoin

open Arith Coins CoinsView CoinsViewDB List Function Option Links Nat Bool Set

/-! ## Connected blocks -/

/-- **What connecting a block does** to the UTXO set. Where `IsBIP30Repeat` holds the coinbase may
overwrite coins; elsewhere every output is new. -/
structure Connects (hash : List UInt8 → Uint256) (pindex : Uint256) (nHeight : ℕ) (block : Block)
    (undo : BlockUndo) (coins coins' : CoinMap) : Prop where
  stores : ∃ coinbase rest, block.vtx = coinbase :: rest ∧ coinbase.isCoinBase = true ∧
    (∀ tx ∈ rest, tx.isCoinBase = false) ∧
    Applies hash nHeight rest undo.vtxundo
      (storeOutputs (coinbase.getHash hash) true nHeight 0 coinbase.vout coins) coins'
  values : ∀ tx ∈ block.vtx, ∀ txout ∈ tx.vout, txout.isNull = false
  new : isBIP30Repeat pindex nHeight = false →
    BlockApplies hash nHeight block.vtx undo.vtxundo coins coins'

/-- **`ConnectBlock` does just that** on every block of which it checks that no coin is
overwritten. -/
theorem connectBlock_connects {env : ConnectEnv} {m : ChainstateManager} {c : CoinsViewCache}
    {below : CoinsView} {block : MemBlock env.toBlockEnv} {pindex pprev : Uint256}
    {entry : IndexEntry} {view' : CoinsView} {undo : BlockUndo}
    (hentry : m.blockIndex pindex = some entry) (hpprev : entry.pprev = some pprev)
    (hview : (cache c below).Coherent)
    (hok : connectBlock env m block pindex (cache c below) false = .ok (view', some undo))
    (hrepeat : isBIP30Repeat pindex entry.nHeight = false)
    (hbip34 : m.getAncestor pprev env.params.bip34Height.toNat ≠ some env.params.bip34Hash) :
    Connects env.hash pindex entry.nHeight block.toBlock undo (cache c below).peekCoin
      view'.peekCoin := by
  have henforce : enforceBIP30 env.params.toParams m pindex entry.nHeight pprev = true := by
    unfold enforceBIP30
    rw [hrepeat, or_eq_true, and_eq_true, or_eq_true]
    refine .inl ⟨rfl, ?_⟩
    split
    · exact .inl rfl
    · exact .inr (bne_iff_ne.2 hbip34)
  obtain ⟨-, -, coins', happlies, hstands⟩ :=
    connectBlock_applies hentry hpprev hview hok (.inl henforce)
  have hbody := (connectBlock_eq_ok hok).1
  rw [hstands.peekCoin_eq]
  refine ⟨?_, fun tx htx txout htxout => ?_, fun _ => happlies⟩
  · obtain ⟨coinbase, rest, coins₁, hvtx, hcreates, hrest⟩ := happlies
    obtain ⟨coinbase', rest', hvtx', hcb, hcbs⟩ := coinbaseCheck_eq_ok hbody.coinbase
    obtain ⟨rfl, rfl⟩ := cons.inj (hvtx.symm.trans hvtx')
    rw [hcb] at hcreates
    exact ⟨coinbase, rest, hvtx, hcb, hcbs, hcreates.eq_storeOutputs ▸ hrest⟩
  · have hrange := (checkTransaction_eq_ok (hbody.transactions tx htx)).values txout htxout
    by_contra hnull
    rw [not_eq_false, TxOut.isNull, beq_iff_eq] at hnull
    rw [hnull] at hrange
    exact absurd hrange (by decide)

theorem connectBlock_connects_spending : ∃ view' undo,
    connectBlock lengthConnectEnv spendingIndex spendingBlock 80 (spendingView 5) false =
        .ok (view', some undo) ∧
      Connects lengthConnectEnv.hash 80 6 spendingBlock.toBlock undo (spendingView 5).peekCoin
        view'.peekCoin := by
  obtain ⟨⟨view', _⟩, hok⟩ := spendingBlock_connects
  obtain ⟨undo, rfl⟩ := connectBlock_undo hok (by decide)
  exact ⟨view', undo, hok, connectBlock_connects rfl rfl (spendingView_coherent 5) hok (by decide)
    (by decide)⟩

namespace BlockStore

variable {ι : Type} (s : BlockStore ι) (hash : List UInt8 → Uint256)

/-- **A tree whose blocks have been connected**: its files hold the block and the undo data of
each, and `utxo` is the UTXO set after it. -/
structure Connected (connected : Set ι) (utxo : ι → CoinMap) : Prop where
  oneGenesis : s.OneGenesis
  height_lt : ∀ i ∈ connected, s.nHeight i < 2 ^ 31
  getBlockHash_ne : ∀ i ∈ connected, s.getBlockHash i ≠ 0
  lookup : ∀ i ∈ connected, s.lookupBlockIndex (s.getBlockHash i) = some i
  pprev : ∀ i ∈ connected, ∀ p, s.pprev i = some p → p ∈ connected
  genesis : ∀ i ∈ connected, s.pprev i = none → utxo i = fun _ => none
  connects : ∀ i ∈ connected, ∀ p, s.pprev i = some p → ∃ block undo,
    s.readBlock i = some block ∧ s.readBlockUndo i = some undo ∧
    Connects hash (s.getBlockHash i) (s.nHeight i) block undo (utxo p) (utxo i)

/-- The UTXO set of a tip, and of none. -/
def tipUtxo (utxo : ι → CoinMap) : Option ι → CoinMap
  | none => fun _ => none
  | some i => utxo i

/-- The hash of a tip, and of none. -/
def tipHash : Option ι → Uint256
  | none => 0
  | some i => s.getBlockHash i

variable {s hash} {connected : Set ι} {utxo : ι → CoinMap}

theorem Connected.onChain (h : s.Connected hash connected utxo) {f i : ι} (hi : i ∈ connected)
    (hf : s.OnChain f i) : f ∈ connected := by
  obtain ⟨n, hn⟩ := hf
  induction n generalizing i with
  | zero => exact some.inj hn ▸ hi
  | succ n ih =>
    rw [back_succ_some] at hn
    cases hp : s.pprev i with
    | none =>
      rw [hp, back_none] at hn
      cases hn
    | some p =>
      rw [hp] at hn
      exact ih (h.pprev i hi p hp) hn

/-- **No header of the tree has one of the two hashes** that `IsBIP30Repeat`
names, at the height it names with it. They belong to blocks of another chain. -/
def NoRepeat (s : BlockStore ι) (connected : Set ι) : Prop :=
  ∀ i ∈ connected, ∀ block, s.readBlock i = some block →
    isBIP30Repeat (s.getHash block.header) (s.nHeight i) = false

/-- `ReadBlock` has compared the hash of the header with that of the index. -/
theorem NoRepeat.isBIP30Repeat (hrepeat : s.NoRepeat connected) {i : ι} (hi : i ∈ connected)
    {block : Block} (hread : s.readBlock i = some block) :
    Quarlcoin.isBIP30Repeat (s.getBlockHash i) (s.nHeight i) = false :=
  getHash_of_readBlock hread ▸ hrepeat i hi block hread

/-- The coins of every UTXO set come from above the genesis block. -/
theorem Connected.allRestorable (h : s.Connected hash connected utxo)
    (hrepeat : s.NoRepeat connected) {i : ι} (hi : i ∈ connected) :
    OldOrRestorable (fun _ => none) (utxo i) := by
  induction hn : s.nHeight i using Nat.strong_induction_on generalizing i with
  | _ n ih =>
  cases hp : s.pprev i with
  | none =>
    rw [h.genesis i hi hp]
    exact fun _ _ hnone => nomatch hnone
  | some p =>
    have hheight := s.height_child i p hp
    obtain ⟨block, undo, hread, -, hconnects⟩ := h.connects i hi p hp
    have hparent := ih (s.nHeight p) (by omega) (h.pprev i hi p hp) rfl
    exact (hparent.blockApplies (by omega) (h.height_lt i hi) (hconnects.new
      (hrepeat.isBIP30Repeat hi hread))
      fun _ _ _ _ _ hnone => nomatch hnone).1

/-! ## The replay -/

section

variable {v₀ v : CoinsView} {m t : CoinMap} {i : ι} {db : CoinsViewDB}

section

variable (h : s.Connected hash connected utxo)
include h

/-- **One block forwards.** -/
theorem Connected.rollforwardBlock {p : ι}
    (hi : i ∈ connected) (hp : s.pprev i = some p) (hv : StandsAt v₀ v m)
    (hmixed : Mixed (utxo p) t m) :
    ∃ v' m', s.rollforwardBlock hash i v = .ok v' ∧ StandsAt v₀ v' m' ∧ Mixed (utxo i) t m' := by
  obtain ⟨block, undo, hread, -, hconnects⟩ := h.connects i hi p hp
  obtain ⟨coinbase, rest, hvtx, hcb, hrest, happlies⟩ := hconnects.stores
  have hvalues := hconnects.values
  rw [hvtx, forall_mem_cons] at hvalues
  obtain ⟨v₁, m₁, hadd, h₁, hmixed₁⟩ := addCoinsCheckedLoop_mixed hvalues.1 hv hmixed
  obtain ⟨v', m', hloop, h', hmixed'⟩ := rollforwardTxs_mixed happlies hrest hvalues.2 h₁ hmixed₁
  refine ⟨v', m', ?_, h', hmixed'⟩
  simp only [BlockStore.rollforwardBlock, hread, hvtx, rollforwardTxs, rollforwardTx, hcb, if_true,
    ok_bind, hadd, hloop, Except.mapError]

/-- **One block backwards.** -/
theorem Connected.rollbackBlock
    (hrepeat : s.NoRepeat connected) {p : ι} (hi : i ∈ connected) (hp : s.pprev i = some p)
    (hv : StandsAt v₀ v m) (hmixed : Mixed (utxo i) t m) :
    ∃ v' m', s.rollbackBlock hash i v = .ok v' ∧ StandsAt v₀ v' m' ∧ Mixed (utxo p) t m' := by
  have hpos : 0 < s.nHeight i := by rw [s.height_child i p hp]; omega
  obtain ⟨block, undo, hread, hreadUndo, hconnects⟩ := h.connects i hi p hp
  have happlies := hconnects.new (hrepeat.isBIP30Repeat hi hread)
  have hrestorable := ((h.allRestorable hrepeat (h.pprev i hi p hp)).blockApplies hpos
    (h.height_lt i hi) happlies fun _ _ _ _ _ hnone => nomatch hnone).2
  obtain ⟨v', clean, m', hok, h', hmixed', -⟩ := disconnectBlock_of_applies
    (R := fun s m => Mixed s t m) (fun _ _ o x hmixed => hmixed.update o x) (s.getBlockHash i)
    (((s.pprev i).map s.getBlockHash).getD 0) (h.height_lt i hi) happlies hrestorable hv hmixed
  refine ⟨_, m', ?_, h'.setBestBlock (((s.pprev i).map s.getBlockHash).getD 0), hmixed'⟩
  simp only [BlockStore.rollbackBlock, if_pos hpos, hread, hreadUndo, hok, ofDisconnect]

/-- **Forwards to the new tip**, from an ancestor of it. The induction is on the
number of blocks in between. -/
theorem Connected.rollforwardLoop {tip a : ι} {n : ℕ}
    (htip : tip ∈ connected) (ha : s.back n (some tip) = some a) (hv : StandsAt v₀ v m)
    (hmixed : Mixed (utxo a) t m) :
    ∃ v' m', s.rollforwardLoop hash tip n (s.nHeight a + 1) v = .ok v' ∧
      StandsAt v₀ v' m' ∧ Mixed (utxo tip) t m' := by
  induction n generalizing a v m with
  | zero =>
    obtain rfl := some.inj ha
    exact ⟨v, m, rfl, hv, hmixed⟩
  | succ n ih =>
    -- the next block on the way, which `GetAncestor` finds
    have hheight := s.nextHeight_back (n + 1) (some tip)
    rw [ha, nextHeight_some, nextHeight_some] at hheight
    obtain ⟨i, hback, hat⟩ := s.exists_back (x := some tip) (n := n)
      (by rw [nextHeight_some]; omega)
    have hp : s.pprev i = some a := by
      rw [s.back_add n 1, hback] at ha
      exact ha
    have hget : s.getAncestor tip (s.nHeight a + 1 : ℕ) = some i := by
      rw [s.getAncestor_eq_back (by omega), ← hback]
      congr 1
      omega
    obtain ⟨v₁, m₁, hblock, h₁, hmixed₁⟩ :=
      h.rollforwardBlock (h.onChain htip ⟨n, hback⟩) hp hv hmixed
    obtain ⟨v', m', hloop, h', hmixed'⟩ := ih hback h₁ hmixed₁
    refine ⟨v', m', ?_, h', hmixed'⟩
    rw [← s.height_child i a hp] at hget ⊢
    simp only [BlockStore.rollforwardLoop, hget, hblock, ok_bind, hloop]

end

/-- The tips of a flush are connected blocks. -/
structure Tips (connected : Set ι) (old : Option ι) (new : ι) : Prop where
  old : ∀ a, old = some a → a ∈ connected
  new : new ∈ connected

variable {old : Option ι} {new : ι}

theorem Connected.standsAt_view (h : s.Connected hash connected utxo)
    (hrepeat : s.NoRepeat connected) (htips : Tips connected old new)
    (hmixed : Mixed (tipUtxo utxo old) (utxo new) db.coinAt) :
    StandsAt (cache {} db.view) (cache {} db.view) db.coinAt := by
  have hall {i : ι} (hi : i ∈ connected) (o : OutPoint) (coin : Coin)
      (hcoin : utxo i o = some coin) : coin.isSpent = false :=
    (h.allRestorable hrepeat hi o coin hcoin).elim (fun hnone => nomatch hnone) (·.unspent)
  have hunspent : db.view.Coherent := by
    intro o coin hcoin
    rcases hmixed o with hold | hnew
    · cases old with
      | none => cases hold.symm.trans hcoin
      | some a => exact hall (htips.old a rfl) o coin (hold.symm.trans hcoin)
    · exact hall htips.new o coin (hnew.symm.trans hcoin)
  obtain ⟨hcoherent, hpeek⟩ := coherent_of_empty (c := {}) hunspent
    (fun o => Finmap.lookup_empty o) rfl rfl
  exact (show db.coinAt = _ from hpeek.symm) ▸ StandsAt.of_coherent hcoherent

variable [DecidableEq ι]

theorem rollbackLoop_self (fork : Option ι) (fuel : ℕ) (v : CoinsView) :
    s.rollbackLoop hash fork fuel fork v = .ok v := by
  cases fuel <;> cases fork <;> simp [BlockStore.rollbackLoop]

section

variable (h : s.Connected hash connected utxo)
include h

variable (hrepeat : s.NoRepeat connected)
include hrepeat

/-- **Backwards to where the chains part.** -/
theorem Connected.rollbackLoop {f : ι} {fuel : ℕ} (hi : i ∈ connected) (hf : s.OnChain f i)
    (hfuel : s.nHeight i < fuel) (hv : StandsAt v₀ v m) (hmixed : Mixed (utxo i) t m) :
    ∃ v' m', s.rollbackLoop hash (some f) fuel (some i) v = .ok v' ∧
      StandsAt v₀ v' m' ∧ Mixed (utxo f) t m' := by
  induction fuel generalizing i v m with
  | zero => omega
  | succ fuel ih =>
    by_cases heq : i = f
    · subst heq
      exact ⟨v, m, rollbackLoop_self _ _ _, hv, hmixed⟩
    obtain rfl | ⟨p, hp, hfp⟩ := hf.eq_or_pprev
    · exact absurd rfl heq
    have hheight := s.height_child i p hp
    obtain ⟨v₁, m₁, hblock, h₁, hmixed₁⟩ := h.rollbackBlock hrepeat hi hp hv hmixed
    obtain ⟨v', m', hloop, h', hmixed'⟩ := ih (h.pprev i hi p hp) hfp (by omega) h₁ hmixed₁
    refine ⟨v', m', ?_, h', hmixed'⟩
    rw [BlockStore.rollbackLoop, if_neg (by simp [heq])]
    simp only [hblock, ok_bind, hp, hloop]

variable (htips : Tips connected old new)
include htips

/-- **The replay arrives at the new tip.** -/
theorem Connected.replayCache (hmixed : Mixed (tipUtxo utxo old) (utxo new) db.coinAt) :
    ∃ fork c below, s.replayFork (s.tipHash old) new = .ok (old, fork) ∧
      s.replayCache hash db new old fork = .ok (cache c below) ∧
      (cache c below).StandsFor [utxo new, db.coinAt] ∧ c.blockHash = s.getBlockHash new := by
  have hv := h.standsAt_view hrepeat htips hmixed
  -- the block the roll forward starts from, and the cache there
  have hback : ∃ fork f n v m, s.replayFork (s.tipHash old) new = .ok (old, fork) ∧
      s.rollbackLoop hash fork ((old.map s.nHeight).getD 0 + 1) old (cache {} db.view) = .ok v ∧
      s.back n (some new) = some f ∧ s.nHeight new - (fork.map s.nHeight).getD 0 = n ∧
      (fork.map s.nHeight).getD 0 = s.nHeight f ∧ StandsAt (cache {} db.view) v m ∧
      Mixed (utxo f) (utxo new) m := by
    cases old with
    | none =>
      obtain ⟨g, hg, hat⟩ := s.exists_back (x := some new) (n := s.nHeight new)
        (by rw [nextHeight_some]; omega)
      rw [nextHeight_some] at hat
      have hgenesis : s.pprev g = none := by
        cases hp : s.pprev g with
        | none => rfl
        | some p =>
          have := s.height_child g p hp
          omega
      refine ⟨none, g, s.nHeight new, _, _, by rw [tipHash, replayFork, if_pos rfl],
        rollbackLoop_self _ _ _, hg, rfl, ?_, hv, ?_⟩
      · rw [map_none, getD_none]
        omega
      · rw [h.genesis g (h.onChain htips.new ⟨_, hg⟩) hgenesis]
        exact hmixed
    | some a =>
      have ha := htips.old a rfl
      obtain ⟨f, hf, hfa, ⟨n, hn⟩, -⟩ := h.oneGenesis.exists_lastCommonAncestor a new
      have hheight := s.nextHeight_back n (some new)
      rw [hn, nextHeight_some, nextHeight_some] at hheight
      obtain ⟨v, m, hloop, hv', hmixed'⟩ := h.rollbackLoop hrepeat ha hfa (lt_succ_self _) hv hmixed
      refine ⟨some f, f, n, v, m, ?_, hloop, hn, ?_, rfl, hv', hmixed'⟩
      · simp only [tipHash, replayFork, if_neg (h.getBlockHash_ne a ha), h.lookup a ha, hf]
      · rw [map_some, getD_some]
        omega
  obtain ⟨fork, f, n, v₁, m₁, hfork, hrollback, hn, hcount, hheight, h₁, hmixed₁⟩ := hback
  obtain ⟨v₂, m₂, hforward, h₂, hmixed₂⟩ := h.rollforwardLoop htips.new hn h₁ hmixed₁
  obtain rfl := hmixed₂.eq
  obtain ⟨c, below, rfl⟩ := h₂.exists_cache
  have h' := h₂.setBestBlock (s.getBlockHash new)
  refine ⟨fork, c.setBestBlock (s.getBlockHash new), below, hfork, ?_, ⟨h'.coherent, ?_⟩, rfl⟩
  rotate_left
  · exact (layers_eq_cons _).trans (congrArg₂ cons h'.peekCoin_eq h'.tail_eq)
  rw [hheight] at hcount
  simp only [BlockStore.replayCache, hrollback, hheight, hcount, ok_bind, hforward]
  rfl

/-- **A replay** writes mixtures of the two UTXO sets until the last batch, which
leaves the one of the new tip. None of its assertions fails. -/
theorem Connected.replayBlocks (full : List BatchOp → Bool)
    (hdb : Underway [s.getBlockHash new, s.tipHash old] (tipUtxo utxo old) (utxo new) db) :
    ∃ cut last, s.replayBlocks hash full db = .ok (cut ++ [last]) ∧
      (∀ db' ∈ cut, Underway [s.getBlockHash new, s.tipHash old] (tipUtxo utxo old) (utxo new)
        db') ∧ Written (s.getBlockHash new) (utxo new) last := by
  obtain ⟨fork, c, below, hfork, hcache, ⟨hcoherent, hlayers⟩, hblock⟩ :=
    h.replayCache hrepeat htips hdb.mixed
  obtain ⟨hpeek, hbelow⟩ := cons.inj hlayers
  rw [layers_eq_cons below] at hbelow
  obtain ⟨cut, last, hflush, hcut, hlast⟩ := flush_spec db full hcoherent
    (cons.inj hbelow).1 (by rw [hblock]; exact h.getBlockHash_ne new htips.new)
    (by rw [hblock]; exact hdb.oldTip)
  rw [hblock, hpeek] at hcut hlast
  refine ⟨cut, last, ?_, fun db' hmem => ?_, hlast⟩
  · simp only [BlockStore.replayBlocks, getHeadBlocks, hdb.headBlocks, getD_some,
      h.lookup new htips.new, hfork, hcache, ok_bind, hflush, Except.mapError]
  · have hwrite := hcut db' hmem
    exact ⟨hwrite.bestBlock, hwrite.headBlocks, hdb.mixed.trans hwrite.mixed⟩

end

/-! ## Recovery -/

/-- The database that a replay leaves after one of its batches, or at its end. -/
def Leaves (s : BlockStore ι) (hash : List UInt8 → Uint256) (db db' : CoinsViewDB) : Prop :=
  ∃ full states, s.replayBlocks hash full db = .ok states ∧ db' ∈ states

theorem replayBlocks_of_written {blockHash : Uint256} (hdb : Written blockHash t db)
    (full : List BatchOp → Bool) : s.replayBlocks hash full db = .ok [] := by
  simp only [BlockStore.replayBlocks, getHeadBlocks, hdb.headBlocks, getD_none]

/-- **After any number of replays** the database is in the middle of the flush,
or through. -/
theorem Connected.underway_or_written (h : s.Connected hash connected utxo)
    (hrepeat : s.NoRepeat connected) (htips : Tips connected old new) {db' : CoinsViewDB}
    (hdb : Underway [s.getBlockHash new, s.tipHash old] (tipUtxo utxo old) (utxo new) db)
    (hruns : Relation.ReflTransGen (s.Leaves hash) db db') :
    Underway [s.getBlockHash new, s.tipHash old] (tipUtxo utxo old) (utxo new) db' ∨
      Written (s.getBlockHash new) (utxo new) db' := by
  induction hruns with
  | refl => exact .inl hdb
  | tail _ hleaves ih =>
    obtain ⟨full, states, hok, hmem⟩ := hleaves
    rcases ih with hunderway | hwritten
    · obtain ⟨cut, last, hreplay, hcut, hlast⟩ := h.replayBlocks hrepeat htips full hunderway
      obtain rfl := Except.ok.inj (hok.symm.trans hreplay)
      rcases mem_append.1 hmem with hmem | hmem
      · exact .inl (hcut _ hmem)
      · exact .inr (mem_singleton.1 hmem ▸ hlast)
    · obtain rfl := Except.ok.inj (hok.symm.trans (replayBlocks_of_written hwritten full))
      exact absurd hmem not_mem_nil

/-- **Recovery is exact.** A flush from the old tip, or from none, to the new one was cut short:
every outpoint has its value in one of the two UTXO sets. Then `ReplayBlocks` leaves the UTXO set
of the new tip, also after replays that were cut short. -/
theorem replayBlocks_exact (s : BlockStore ι) (hash : List UInt8 → Uint256) (connected : Set ι)
    (utxo : ι → CoinMap) (h : s.Connected hash connected utxo) (hrepeat : s.NoRepeat connected)
    (old : Option ι) (new : ι) (htips : Tips connected old new) (db db' : CoinsViewDB)
    (hdb : Underway [s.getBlockHash new, s.tipHash old] (tipUtxo utxo old) (utxo new) db)
    (hruns : Relation.ReflTransGen (s.Leaves hash) db db') (full : List BatchOp → Bool) :
    ∃ states, s.replayBlocks hash full db' = .ok states ∧
      Written (s.getBlockHash new) (utxo new) (states.getLastD db') := by
  rcases h.underway_or_written hrepeat htips hdb hruns with hunderway | hwritten
  · obtain ⟨cut, last, hok, -, hlast⟩ := h.replayBlocks hrepeat htips full hunderway
    refine ⟨cut ++ [last], hok, ?_⟩
    rw [getLastD_concat]
    exact hlast
  · exact ⟨[], replayBlocks_of_written hwritten full, hwritten⟩

end

end BlockStore

/-! ### A flush between two branches

Two blocks above the genesis block, each with a coinbase. A flush from the one
to the other has erased the coin of the first and not yet written that of the
second. -/

variable (scriptSig scriptPubKey : List UInt8)

def coinbaseTo : Transaction where
  vin := [⟨⟨0, OutPoint.nullIndex⟩, scriptSig, sequenceFinal, []⟩]
  vout := [⟨5000000000, scriptPubKey⟩]
  version := 1
  nLockTime := 0

/-- The nonce tells the blocks apart. -/
def coinbaseBlock : Block :=
  ⟨{ BlockHeader.null with nNonce := UInt32.ofNat scriptSig.length },
    [coinbaseTo scriptSig scriptPubKey]⟩

variable (hash : List UInt8 → Uint256)

def coinbaseUtxo (nHeight : ℕ) (scriptSig scriptPubKey : List UInt8) (coins : CoinMap) : CoinMap :=
  storeOutputs ((coinbaseTo scriptSig scriptPubKey).getHash hash) true nHeight 0
    (coinbaseTo scriptSig scriptPubKey).vout coins

theorem connects_coinbaseBlock {hash : List UInt8 → Uint256} {pindex : Uint256} {nHeight : ℕ}
    {scriptSig scriptPubKey : List UInt8} {coins : CoinMap}
    (hnew : isBIP30Repeat pindex nHeight = false → Script.isUnspendable scriptPubKey = false →
      coins ⟨(coinbaseTo scriptSig scriptPubKey).getHash hash, 0⟩ = none) :
    Connects hash pindex nHeight (coinbaseBlock scriptSig scriptPubKey) ⟨[]⟩ coins
      (coinbaseUtxo hash nHeight scriptSig scriptPubKey coins) where
  stores := ⟨_, [], rfl, rfl, fun _ hmem => absurd hmem not_mem_nil, .nil⟩
  values tx htx txout htxout := by
    obtain rfl := mem_singleton.1 htx
    obtain rfl := mem_singleton.1 htxout
    rfl
  new hrepeat := by
    refine ⟨coinbaseTo scriptSig scriptPubKey, [], _, rfl, ?_, .nil⟩
    cases hun : Script.isUnspendable scriptPubKey with
    | true =>
      rw [coinbaseUtxo, coinbaseTo, storeOutputs, if_pos hun]
      exact .skip hun .nil
    | false =>
      rw [coinbaseUtxo, coinbaseTo, storeOutputs, if_neg (by simp [hun])]
      exact .add rfl hun (hnew hrepeat hun) .nil

theorem coinbaseUtxo_of_ne {hash : List UInt8 → Uint256} {nHeight : ℕ}
    {scriptSig scriptPubKey : List UInt8} {coins : CoinMap} {o : OutPoint}
    (ho : o ≠ ⟨(coinbaseTo scriptSig scriptPubKey).getHash hash, 0⟩) :
    coinbaseUtxo hash nHeight scriptSig scriptPubKey coins o = coins o := by
  change (if Script.isUnspendable scriptPubKey then coins else update coins
    ⟨(coinbaseTo scriptSig scriptPubKey).getHash hash, 0⟩ _) o = coins o
  split
  · rfl
  · exact update_of_ne ho _ _

/-- The number of bytes, for a hash. -/
def countHash (bytes : List UInt8) : Uint256 := BitVec.ofNat 256 bytes.length

def forkStore : BlockStore (Fin 3) where
  toBlockTree := forkTree
  getBlockHash i := BitVec.ofNat 256 (i + 1)
  lookupBlockIndex hash := (List.finRange 3).find? fun i => hash = BitVec.ofNat 256 (i + 1)
  readRawBlock i := some (coinbaseBlock (List.replicate i 0) [0x51])
  readBlockUndo _ := some ⟨[]⟩
  getHash header := BitVec.ofNat 256 (header.nNonce.toNat + 1)
  checkProofOfWork _ := true

theorem forkStore_readBlock (i : Fin 3) :
    forkStore.readBlock i = some (coinbaseBlock (replicate i 0) [0x51]) := by
  revert i
  decide

def forkUtxo (i : Fin 3) : CoinMap :=
  if i.val = 0 then fun _ => none
  else coinbaseUtxo countHash 1 (List.replicate i 0) [0x51] fun _ => none

theorem forkStore_connected : forkStore.Connected countHash univ forkUtxo where
  oneGenesis := by unfold BlockTree.OneGenesis; decide
  height_lt := by decide
  getBlockHash_ne i _ := by revert i; decide
  lookup i _ := by revert i; decide
  pprev _ _ _ _ := trivial
  genesis i _ hp := by
    have hi : i.val = 0 := by revert i; decide
    rw [forkUtxo, if_pos hi]
  connects i _ p hp := by
    obtain ⟨hi, rfl⟩ : i.val ≠ 0 ∧ p = 0 := by revert i p; decide
    refine ⟨_, _, forkStore_readBlock i, rfl, ?_⟩
    have hheight : forkStore.nHeight i = 1 := by revert i; decide
    rw [hheight, forkUtxo, forkUtxo, if_neg hi]
    exact connects_coinbaseBlock fun _ _ => rfl

theorem forkStore_noRepeat : forkStore.NoRepeat univ := by
  intro i _ block hread
  rw [BlockStore.getHash_of_readBlock hread]
  clear hread
  revert i
  decide

/-- The database in the middle: neither coin is there. -/
def forkDb : CoinsViewDB := { headBlocks := some [3, 2] }

theorem forkDb_underway : CoinsViewDB.Underway [3, 2] (forkUtxo 1) (forkUtxo 2) forkDb where
  bestBlock := rfl
  headBlocks := rfl
  mixed o := by
    by_cases ho : o = ⟨(coinbaseTo (replicate 1 0) [0x51]).getHash countHash, 0⟩
    · subst ho
      decide
    · left
      have hother : coinbaseUtxo countHash 1 (replicate 1 0) [0x51] (fun _ => none) o = none :=
        coinbaseUtxo_of_ne ho
      exact hother.symm

/-- The replay of the section above finds the coin of the second block. -/
theorem forkDb_recovers :
    ∃ states, forkStore.replayBlocks countHash (fun _ => true) forkDb = .ok states ∧
      CoinsViewDB.Written 3 (forkUtxo 2) (states.getLastD forkDb) :=
  BlockStore.replayBlocks_exact forkStore countHash univ forkUtxo forkStore_connected
    forkStore_noRepeat (some 1) 2 ⟨fun _ _ => trivial, trivial⟩ forkDb forkDb forkDb_underway .refl
    fun _ => true

end Quarlcoin
