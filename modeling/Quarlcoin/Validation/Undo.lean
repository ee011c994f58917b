import Quarlcoin.Validation.Applied
/-!
# Disconnecting a block — the inverse of connecting it

`DisconnectBlock` goes backwards through what `ConnectBlock` did to the coins. A coin of
height zero is taken for one whose undo data lacks the height; a coin that cannot be spent
is not put back by `AddCoin`; and an output that replaces a coin does not bring it back.
-/

namespace Quarlcoin

open Arith Coins CoinsView List Function Option

/-- The undo data of a coin says all about it, and `AddCoin` stores it. -/
structure Restorable (coin : Coin) : Prop where
  unspent : coin.isSpent = false
  spendable : coin.out.scriptPubKey.isUnspendable = false
  height : coin.nHeight ≠ 0

/-! ## The operations succeed -/

variable {v₀ v : CoinsView} {coins₀ coins coins' m : CoinMap} {o : OutPoint} {coin : Coin}

namespace StandsAt

variable (h : StandsAt v₀ v coins)
include h

theorem exists_haveCoin (o : OutPoint) :
    ∃ v', v.haveCoin o = .ok (v', (coins o).isSome) ∧ StandsAt v₀ v' coins := by
  obtain ⟨c, below, rfl⟩ := h.exists_cache
  obtain ⟨v', hok, -⟩ := haveCoin_spec h.coherent
  obtain ⟨hlook, -⟩ := h.sound.haveCoin hok
  exact ⟨v', by rw [← h.peekCoin_eq]; exact hok, h.look hlook⟩

theorem exists_spendCoin (o : OutPoint) :
    ∃ v' moved, v.spendCoin o = .ok (v', moved) ∧ StandsAt v₀ v' (update coins o none) ∧
      ∀ coin, coins o = some coin → moved = some coin := by
  obtain ⟨c, below, rfl⟩ := h.exists_cache
  obtain ⟨v', moved, hok, -⟩ := spendCoin_spec h.coherent
  exact ⟨v', moved, hok, h.spend hok⟩

theorem exists_addCoin (hspent : coin.isSpent = false)
    (hspendable : coin.out.scriptPubKey.isUnspendable = false) (o : OutPoint) :
    ∃ v', v.addCoin o coin (coins o).isSome = .ok v' ∧
      StandsAt v₀ v' (update coins o (some coin)) := by
  obtain ⟨c, below, rfl⟩ := h.exists_cache
  have hover : (coins o).isSome = false → coins o = none := fun hnone => by
    rwa [isSome_eq_false_iff, isNone_iff_eq_none] at hnone
  obtain ⟨c', hok, -⟩ := addCoin_spec h.coherent hspent hspendable
    fun hpo => (congrFun h.peekCoin_eq o).trans (hover hpo)
  have hok' : (cache c below).addCoin o coin (coins o).isSome = .ok (cache c' below) := by
    rw [CoinsView.addCoin, hok]
    rfl
  exact ⟨_, hok', h.add hok' hspendable hover⟩

end StandsAt

variable {hash : List UInt8 → Uint256} {txid : Uint256} {fCoinbase : Bool} {nHeight i : ℕ}
  {vin : List TxIn} {vout : List TxOut} {vprevout : List Coin} {vtx : List Transaction}
  {vtxundo : List (List Coin)}

/-! ## Backwards

The map `m` need not be the one that the block left, only related to it in a way that
writing one coin to both keeps; if it is that map, all is clean. -/

/-- A relation that is kept by writing the same to both maps. -/
def KeptByWrites (R : CoinMap → CoinMap → Prop) : Prop :=
  ∀ s m o x, R s m → R (update s o x) (update m o x)

section

variable {R : CoinMap → CoinMap → Prop}

/-- **The inputs** are restored from the last to the first. -/
theorem restoreInputs_of_spends (hR : KeptByWrites R) (hspends : Spends coins vin vprevout coins')
    (hrestorable : ∀ coin ∈ vprevout, Restorable coin) (h : StandsAt v₀ v m) (hm : R coins' m) :
    ∃ v' clean m', restoreInputs vin vprevout v = .ok (v', clean) ∧ StandsAt v₀ v' m' ∧
      R coins m' ∧ (m = coins' → clean = true ∧ m' = coins) := by
  induction hspends with
  | nil => exact ⟨v, true, m, rfl, h, hm, fun heq => ⟨rfl, heq⟩⟩
  | @cons coins coins' txin vin coin vprevout hcoin _ ih =>
    rw [forall_mem_cons] at hrestorable
    obtain ⟨v₁, later, m₁, hrest, h₁, hm₁, hexact⟩ := ih hrestorable.2 hm
    obtain ⟨v₂, hhave, h₂⟩ := h₁.exists_haveCoin txin.prevout
    obtain ⟨v', hadd, h'⟩ :=
      h₂.exists_addCoin hrestorable.1.unspent hrestorable.1.spendable txin.prevout
    have hm' := hR _ _ txin.prevout (some coin) hm₁
    -- the coin put back is the one the map had
    have hback : update coins txin.prevout (some coin) = coins := by rw [← hcoin, update_eq_self]
    rw [update_idem, hback] at hm'
    refine ⟨v', later && !(m₁ txin.prevout).isSome, _, ?_, h', hm', fun heq => ?_⟩
    · simp only [restoreInputs, hrest, applyTxInUndo, hhave, ofViewUndo, Except.mapError, ok_bind,
        hrestorable.1.height, if_false, hadd]
    · obtain ⟨rfl, rfl⟩ := hexact heq
      rw [update_self, update_idem, hback]
      exact ⟨rfl, rfl⟩

theorem Spends.length_eq (h : Spends coins vin vprevout coins') : vprevout.length = vin.length := by
  induction h with
  | nil => rfl
  | cons _ _ ih => rw [length_cons, length_cons, ih]

/-- Later outputs leave a coin alone, and do not need it. -/
theorem Creates.frame (h : Creates txid fCoinbase nHeight i vout coins coins')
    (hcoin : coins o = some coin) : coins' o = some coin ∧
      Creates txid fCoinbase nHeight i vout (update coins o none) (update coins' o none) := by
  induction h with
  | nil => exact ⟨hcoin, .nil⟩
  | skip hun _ ih =>
    obtain ⟨hcoin', hcreates⟩ := ih hcoin
    exact ⟨hcoin', .skip hun hcreates⟩
  | @add i txout vout coins coins' hvalue hun hnone _ ih =>
    have hne : (⟨txid, UInt32.ofNat i⟩ : OutPoint) ≠ o := by
      rintro rfl
      rw [hnone] at hcoin
      cases hcoin
    obtain ⟨hcoin', hcreates⟩ := ih (by rw [update_of_ne hne.symm]; exact hcoin)
    refine ⟨hcoin', .add hvalue hun (by rw [update_of_ne hne]; exact hnone) ?_⟩
    rw [update_comm hne] at hcreates
    exact hcreates

/-- **The outputs** are taken out again, each as it was created. -/
theorem unspendOutputs_of_creates (hR : KeptByWrites R) (exception : Bool)
    (hheight : nHeight < 2 ^ 31)
    (hcreates : Creates txid fCoinbase nHeight i vout coins coins') (h : StandsAt v₀ v m)
    (hm : R coins' m) :
    ∃ v' clean m', unspendOutputs txid fCoinbase exception nHeight i vout v = .ok (v', clean) ∧
      StandsAt v₀ v' m' ∧ R coins m' ∧ (m = coins' → clean = true ∧ m' = coins) := by
  induction vout generalizing v m i coins coins' with
  | nil =>
    cases hcreates
    exact ⟨v, true, m, rfl, h, hm, fun heq => ⟨rfl, heq⟩⟩
  | cons txout vout ih =>
    cases hcreates with
    | skip hun hcreates =>
      obtain ⟨v', clean, m', hrest, hrest'⟩ := ih hcreates h hm
      exact ⟨v', clean, m', by rw [unspendOutputs, if_pos hun, hrest], hrest'⟩
    | add _ hun hnone hcreates =>
      obtain ⟨hcoin, hcreates'⟩ := hcreates.frame (update_self _ _ _)
      rw [update_idem, update_eq_self_iff.2 hnone.symm] at hcreates'
      obtain ⟨v₁, moved, hspend, h₁, hmoved⟩ := h.exists_spendCoin ⟨txid, UInt32.ofNat i⟩
      obtain ⟨v', clean, m', hrest, h', hm', hexact⟩ := ih hcreates' h₁ (hR _ _ _ none hm)
      have hsame : txout = (createdCoin fCoinbase nHeight txout).out ∧
          nHeight = (createdCoin fCoinbase nHeight txout).nHeight.toNat ∧
          fCoinbase = (createdCoin fCoinbase nHeight txout).fCoinBase :=
        ⟨rfl, (Nat.mod_eq_of_lt hheight).symm, rfl⟩
      have hok : ∃ clean', unspendOutputs txid fCoinbase exception nHeight i (txout :: vout) v =
          .ok (v', clean') ∧ (m = coins' → clean' = true) := by
        simp only [unspendOutputs, hun, hspend, ofViewUndo, Except.mapError, ok_bind, hrest]
        refine ⟨_, rfl, fun heq => ?_⟩
        rw [hmoved _ (heq ▸ hcoin), (hexact (by rw [heq])).1]
        simp [decide_eq_true hsame]
      obtain ⟨clean', hok, hclean⟩ := hok
      exact ⟨v', clean', m', hok, h', hm', fun heq => ⟨hclean heq, (hexact (by rw [heq])).2⟩⟩

/-- **The transactions** are undone from the last to the first. -/
theorem disconnectLoop_of_applies (hR : KeptByWrites R) (fEnforceBIP30 : Bool)
    (hheight : nHeight < 2 ^ 31) (happlies : Applies hash nHeight vtx vtxundo coins coins')
    (hrestorable : ∀ txundo ∈ vtxundo, ∀ coin ∈ txundo, Restorable coin)
    (h : StandsAt v₀ v m) (hm : R coins' m) :
    ∃ v' clean m', disconnectLoop hash fEnforceBIP30 nHeight vtx vtxundo v = .ok (v', clean) ∧
      StandsAt v₀ v' m' ∧ R coins m' ∧ (m = coins' → clean = true ∧ m' = coins) := by
  induction happlies with
  | nil => exact ⟨v, true, m, rfl, h, hm, fun heq => ⟨rfl, heq⟩⟩
  | @cons tx vtx txundo vtxundo _ _ _ _ hspends hcreates _ ih =>
    rw [forall_mem_cons] at hrestorable
    obtain ⟨v₁, later, m₁, hrest, h₁, hm₁, hexact⟩ := ih hrestorable.2 hm
    obtain ⟨v₂, cleanOut, m₂, hout, h₂, hm₂, hexact₂⟩ :=
      unspendOutputs_of_creates hR (tx.isCoinBase && !fEnforceBIP30) hheight hcreates h₁ hm₁
    obtain ⟨v', cleanIn, m', hin, h', hm', hexact'⟩ :=
      restoreInputs_of_spends hR hspends hrestorable.1 h₂ hm₂
    refine ⟨v', later && (cleanOut && cleanIn), m', ?_, h', hm', fun heq => ?_⟩
    · simp only [disconnectLoop, hrest, disconnectTx, disconnectOutputs, hout, ok_bind,
        hspends.length_eq, ne_eq, not_true_eq_false, if_false, hin]
    · obtain ⟨rfl, heq₁⟩ := hexact heq
      obtain ⟨rfl, heq₂⟩ := hexact₂ heq₁
      obtain ⟨rfl, heq'⟩ := hexact' heq₂
      exact ⟨rfl, heq'⟩

end

/-! ### The coins that the undo data keeps -/

/-- A coin of the map is one of `coins₀`, or one whose undo data is enough. -/
def OldOrRestorable (coins₀ coins : CoinMap) : Prop :=
  ∀ o coin, coins o = some coin → coins₀ o = some coin ∨ Restorable coin

/-- The coins that the inputs of a block find in the map can be put back. -/
def SpentRestorable (vtx : List Transaction) (coins : CoinMap) : Prop :=
  ∀ tx ∈ vtx, ∀ txin ∈ tx.vin, ∀ coin, coins txin.prevout = some coin → Restorable coin

theorem OldOrRestorable.spends (h : OldOrRestorable coins₀ coins)
    (hspends : Spends coins vin vprevout coins')
    (hold : ∀ txin ∈ vin, ∀ coin, coins₀ txin.prevout = some coin → Restorable coin) :
    OldOrRestorable coins₀ coins' ∧ ∀ coin ∈ vprevout, Restorable coin := by
  induction hspends with
  | nil => exact ⟨h, fun _ hmem => absurd hmem not_mem_nil⟩
  | @cons coins coins' txin vin coin vprevout hcoin _ ih =>
    rw [forall_mem_cons] at hold
    have hless : OldOrRestorable coins₀ (update coins txin.prevout none) := by
      intro o coin hcoin
      rcases eq_or_ne o txin.prevout with rfl | hne
      · rw [update_self] at hcoin
        cases hcoin
      · rw [update_of_ne hne] at hcoin
        exact h o coin hcoin
    obtain ⟨h', hrest⟩ := ih hless hold.2
    refine ⟨h', forall_mem_cons.2 ⟨?_, hrest⟩⟩
    rcases h _ _ hcoin with hcoin₀ | hcoin
    · exact hold.1 _ hcoin₀
    · exact hcoin

theorem restorable_createdCoin {txout : TxOut}
    (hpos : 0 < nHeight) (hheight : nHeight < 2 ^ 31) (hvalue : txout.isNull = false)
    (hun : txout.scriptPubKey.isUnspendable = false) :
    Restorable (createdCoin fCoinbase nHeight txout) where
  unspent := hvalue
  spendable := hun
  height := by
    intro hzero
    have hnat := congrArg BitVec.toNat hzero
    rw [createdCoin, BitVec.toNat_ofNat, Nat.mod_eq_of_lt hheight] at hnat
    exact hpos.ne' hnat

section

variable (h : OldOrRestorable coins₀ coins)
include h

variable (hpos : 0 < nHeight)
include hpos

variable (hheight : nHeight < 2 ^ 31)
include hheight

theorem OldOrRestorable.creates (hcreates : Creates txid fCoinbase nHeight i vout coins coins') :
    OldOrRestorable coins₀ coins' := by
  induction hcreates with
  | nil => exact h
  | skip _ _ ih => exact ih h
  | add hvalue hun _ _ ih =>
    refine ih fun o coin hcoin => ?_
    rw [update_apply] at hcoin
    split at hcoin
    · obtain rfl := some.inj hcoin
      exact .inr (restorable_createdCoin hpos hheight hvalue hun)
    · exact h o coin hcoin

theorem OldOrRestorable.applies
    (happlies : Applies hash nHeight vtx vtxundo coins coins') (hold : SpentRestorable vtx coins₀) :
    OldOrRestorable coins₀ coins' ∧ ∀ txundo ∈ vtxundo, ∀ coin ∈ txundo, Restorable coin := by
  induction happlies with
  | nil => exact ⟨h, fun _ hmem => absurd hmem not_mem_nil⟩
  | cons hspends hcreates _ ih =>
    unfold SpentRestorable at hold
    rw [forall_mem_cons] at hold
    obtain ⟨h₁, hfirst⟩ := h.spends hspends hold.1
    obtain ⟨h', hrest⟩ := ih (h₁.creates hpos hheight hcreates) hold.2
    exact ⟨h', forall_mem_cons.2 ⟨hfirst, hrest⟩⟩

/-- The undo data of a block is that of coins which the map had, or the block created. -/
theorem OldOrRestorable.blockApplies (happlies : BlockApplies hash nHeight vtx vtxundo coins coins')
    (hold : SpentRestorable vtx coins₀) :
    OldOrRestorable coins₀ coins' ∧ ∀ txundo ∈ vtxundo, ∀ coin ∈ txundo, Restorable coin := by
  obtain ⟨coinbase, rest, coins₁, hvtx, hcreates, hrest⟩ := happlies
  exact (h.creates hpos hheight hcreates).applies hpos hheight hrest
    fun tx htx => hold tx (hvtx ▸ mem_cons_of_mem _ htx)

end

/-! ## There and back -/

/-- A best block that is null lets the view below through. -/
theorem bestBlock_setBestBlock_self (c : CoinsViewCache) (below : CoinsView) :
    ((cache c below).setBestBlock (cache c below).bestBlock).bestBlock =
      (cache c below).bestBlock := by
  rw [setBestBlock, bestBlock_cache, bestBlock_cache, CoinsViewCache.setBestBlock]
  by_cases hzero : c.blockHash = 0
  · simp only [if_pos hzero, ite_self]
  · simp only [if_neg hzero]

theorem Applies.length_eq (h : Applies hash nHeight vtx vtxundo coins coins') :
    vtxundo.length = vtx.length := by
  induction h with
  | nil => rfl
  | cons _ _ _ ih => rw [length_cons, length_cons, ih]

/-- **`DisconnectBlock` undoes what was done to the map.** -/
theorem disconnectBlock_of_applies {R : CoinMap → CoinMap → Prop} (hR : KeptByWrites R)
    {block : Block} (pindex pprev : Uint256) {undo : BlockUndo} (hheight : nHeight < 2 ^ 31)
    (happlies : BlockApplies hash nHeight block.vtx undo.vtxundo coins coins')
    (hrestorable : ∀ txundo ∈ undo.vtxundo, ∀ coin ∈ txundo, Restorable coin) (h : StandsAt v₀ v m)
    (hm : R coins' m) :
    ∃ v' clean m', disconnectBlock hash block pindex nHeight pprev (some undo) v =
        .ok (v'.setBestBlock pprev, clean) ∧ StandsAt v₀ v' m' ∧ R coins m' ∧
      (m = coins' → clean = true ∧ m' = coins) := by
  obtain ⟨coinbase, rest, coins₁, hvtx, hcreates, hrest⟩ := happlies
  obtain ⟨v₁, later, m₁, hloop, h₁, hm₁, hexact⟩ := disconnectLoop_of_applies hR
    (!isBIP30Unspendable pindex nHeight) hheight hrest hrestorable h hm
  obtain ⟨v₂, clean, m₂, hout, h₂, hm₂, hexact₂⟩ := unspendOutputs_of_creates hR
    (coinbase.isCoinBase && !!isBIP30Unspendable pindex nHeight) hheight hcreates h₁ hm₁
  have hlen : undo.vtxundo.length + 1 = block.vtx.length := by
    rw [hvtx, length_cons, hrest.length_eq]
  refine ⟨v₂, later && clean, m₂, ?_, h₂, hm₂, fun heq => ?_⟩
  · simp only [disconnectBlock, hlen, ne_eq, not_true_eq_false, if_false, hvtx, hloop,
      disconnectOutputs, hout, ok_bind]
  · obtain ⟨rfl, heq₁⟩ := hexact heq
    obtain ⟨rfl, heq₂⟩ := hexact₂ heq₁
    exact ⟨rfl, heq₂⟩

/-- **Disconnecting a block undoes connecting it.** The coins that the block spends have a height
and can be spent, and no output has a coin yet. Then `DisconnectBlock` goes back, cleanly, to the
map and the best block from before. -/
theorem disconnectBlock_connectBlock (env : ConnectEnv) (m : ChainstateManager)
    (block : MemBlock env.toBlockEnv) (pindex pprev : Uint256) (entry : IndexEntry)
    (c : CoinsViewCache) (below view' : CoinsView) (undo : BlockUndo)
    (hentry : m.blockIndex pindex = some entry) (hpprev : entry.pprev = some pprev)
    (hpos : 0 < entry.nHeight) (hheight : entry.nHeight < 2 ^ 31) (hview : (cache c below).Coherent)
    (hok : connectBlock env m block pindex (cache c below) false = .ok (view', some undo))
    (hold : ∀ tx ∈ block.vtx, ∀ txin ∈ tx.vin, ∀ coin,
      (cache c below).peekCoin txin.prevout = some coin →
        coin.out.scriptPubKey.isUnspendable = false ∧ coin.nHeight ≠ 0)
    (hnew : enforceBIP30 env.params.toParams m pindex entry.nHeight pprev = true ∨
      OutputsNew env.hash block.vtx (cache c below).peekCoin) :
    ∃ view'', disconnectBlock env.hash block.toBlock pindex entry.nHeight pprev (some undo) view' =
        .ok (view'', true) ∧ view''.peekCoin = (cache c below).peekCoin ∧
      view''.bestBlock = (cache c below).bestBlock := by
  obtain ⟨hbest, -, coins', happlies, hstands⟩ := connectBlock_applies hentry hpprev hview hok hnew
  have hsame : OldOrRestorable (cache c below).peekCoin (cache c below).peekCoin := fun _ _ => .inl
  have hrestorable := (hsame.blockApplies hpos hheight happlies fun tx htx txin htxin coin hcoin =>
    have ⟨hun, hne⟩ := hold tx htx txin htxin coin hcoin
    ⟨hview.unspent hcoin, hun, hne⟩).2
  obtain ⟨v₁, clean, m, hdisconnect, h₁, -, hexact⟩ := disconnectBlock_of_applies
    (R := fun _ _ => True) (fun _ _ _ _ => id) pindex pprev hheight happlies hrestorable hstands
    trivial
  obtain ⟨rfl, rfl⟩ := hexact rfl
  refine ⟨_, hdisconnect, (h₁.setBestBlock pprev).peekCoin_eq, (h₁.bestBlock_eq pprev).trans ?_⟩
  rw [hbest, bestBlock_setBestBlock_self]

/-! ### A block that connects and disconnects -/

theorem enforceBIP30_spending :
    enforceBIP30 lengthConnectEnv.params.toParams spendingIndex 80 6 7 = true := by decide

/-- The block of the section above, over a coin of height five. -/
theorem spendingBlock_disconnects :
    ∃ view' undo view'', connectBlock lengthConnectEnv spendingIndex spendingBlock 80
        (spendingView 5) false = .ok (view', some undo) ∧
      disconnectBlock lengthConnectEnv.hash spendingBlock.toBlock 80 6 7 (some undo) view' =
        .ok (view'', true) ∧
      view''.peekCoin = (spendingView 5).peekCoin ∧ view''.bestBlock = 7 := by
  obtain ⟨⟨view', _⟩, hok⟩ := spendingBlock_connects
  obtain ⟨undo, rfl⟩ := connectBlock_undo hok (by decide)
  obtain ⟨view'', hdisconnect, hpeek, hbest⟩ := disconnectBlock_connectBlock lengthConnectEnv
    spendingIndex spendingBlock 80 7 _ _ _ view' undo rfl rfl (by decide) (by decide)
    (spendingView_coherent 5) hok (fun _ _ txin _ coin hcoin => by
      replace hcoin := (spendingView_peekCoin 5 txin.prevout).symm.trans hcoin
      split at hcoin
      · obtain rfl := some.inj hcoin
        decide
      · cases hcoin) (.inl enforceBIP30_spending)
  exact ⟨view', undo, view'', hok, hdisconnect, hpeek, hbest⟩

/-! ### A coin without a height

Undo data of height zero is taken for that of an output whose transaction has
others left, which say the height. A coin of the map that has this height, and
no others of its transaction beside it, is never put back. -/

theorem Creates.eq_of_hash_ne (h : Creates txid fCoinbase nHeight i vout coins coins')
    (hne : o.hash ≠ txid) : coins' o = coins o := by
  induction h with
  | nil => rfl
  | skip _ _ ih => exact ih
  | add _ _ _ _ ih => rw [ih, update_of_ne fun heq => hne (congrArg OutPoint.hash heq)]

theorem accessByTxidLoop_of_none (hnone : ∀ i, coins ⟨txid, i⟩ = none) (n : ℕ)
    {i : UInt32} (h : StandsAt v₀ v coins) : ∃ v', accessByTxidLoop txid n i v = .ok (v', {}) := by
  induction n generalizing i v with
  | zero => exact ⟨v, rfl⟩
  | succ n ih =>
    obtain ⟨c, below, rfl⟩ := h.exists_cache
    obtain ⟨v₁, hok, -⟩ := accessCoin_spec h.coherent
    rw [h.peekCoin_eq, hnone] at hok
    obtain ⟨v', hrest⟩ := ih (h.look (h.sound.accessCoin hok).1)
    refine ⟨v', ?_⟩
    rw [accessByTxidLoop, hok]
    exact hrest

theorem applyTxInUndo_of_height_zero (o : OutPoint) (h : StandsAt v₀ v coins)
    (hheight : coin.nHeight = 0) (hnone : ∀ i, coins ⟨o.hash, i⟩ = none) :
    applyTxInUndo coin v o = .error .failed := by
  obtain ⟨v₁, hhave, h₁⟩ := h.exists_haveCoin o
  obtain ⟨v₂, haccess⟩ := accessByTxidLoop_of_none hnone maxOutputsPerBlock (i := 0) h₁
  rw [applyTxInUndo, hhave]
  simp only [ofViewUndo, Except.mapError, ok_bind, hheight, accessByTxid, haccess]
  rfl

theorem spendingBlock_connects_zero :
    ∃ r, connectBlock lengthConnectEnv spendingIndex spendingBlock 80 (spendingView 0) false =
      .ok r :=
  (Ensures.exists_ok (P := fun _ => True) (by decide +kernel)).imp fun _ h => h.1

/-- The coin that the block spends there. -/
def heightlessCoin : Coin := { out := ⟨100000000, [0x51]⟩, nHeight := 0 }

/-- The block of the section above, over a coin of height zero. -/
theorem spendingBlock_stuck :
    ∃ view' undo, connectBlock lengthConnectEnv spendingIndex spendingBlock 80 (spendingView 0)
        false = .ok (view', some undo) ∧
      disconnectBlock lengthConnectEnv.hash spendingBlock.toBlock 80 6 7 (some undo) view' =
        .error .failed := by
  obtain ⟨⟨view', _⟩, hok⟩ := spendingBlock_connects_zero
  obtain ⟨undo, rfl⟩ := connectBlock_undo hok (by decide)
  obtain ⟨-, -, coins', ⟨_, _, coins₁, hvtx, hcreates, happlies⟩, hstands⟩ :=
    connectBlock_applies rfl rfl (spendingView_coherent 0) hok (.inl enforceBIP30_spending)
  obtain ⟨rfl, rfl⟩ := cons.inj hvtx
  refine ⟨view', undo, hok, ?_⟩
  obtain ⟨vtxundo⟩ := undo
  cases happlies with
  | @cons _ _ txundo vtxundo _ coins₂ coins₃ _ hspends hcreates' hnil =>
    cases hnil
    obtain ⟨v₁, clean, m, hunspend, h₁, -, hexact⟩ := unspendOutputs_of_creates
      (R := fun _ _ => True) (fun _ _ _ _ => id)
      (spendingTx.isCoinBase && !!isBIP30Unspendable 80 6) (by decide) hcreates' hstands trivial
    obtain ⟨rfl, rfl⟩ := hexact rfl
    cases hspends with
    | @cons _ _ _ _ coin vprevout hcoin hspends =>
      cases hspends
      -- the coin is the one of the map from before: the coinbase has another hash
      have hhash : (5 : Uint256) ≠ spendingCoinbase.getHash lengthConnectEnv.hash := by decide
      have hother (i : UInt32) : coins₁ ⟨5, i⟩ = (spendingView 0).peekCoin ⟨5, i⟩ :=
        hcreates.eq_of_hash_ne hhash
      obtain rfl : coin = heightlessCoin := some.inj
        (hcoin.symm.trans ((hother 0).trans (spendingView_peekCoin 0 ⟨5, 0⟩)))
      have hgone (i : UInt32) : update coins₁ ⟨5, 0⟩ none ⟨5, i⟩ = none := by
        rw [update_apply]
        split
        · rfl
        · rw [hother, spendingView_peekCoin]
          exact if_neg ‹_›
      have hrestore : restoreInputs spendingTx.vin [heightlessCoin] v₁ = .error .failed := by
        have hfail : applyTxInUndo heightlessCoin v₁ ⟨5, 0⟩ = .error .failed :=
          applyTxInUndo_of_height_zero ⟨5, 0⟩ h₁ rfl hgone
        simp only [spendingTx, restoreInputs, bind, Except.bind, hfail]
      have htx : disconnectTx lengthConnectEnv.hash (!isBIP30Unspendable 80 6) 6 spendingTx
          [heightlessCoin] view' = .error .failed := by
        simp only [disconnectTx, disconnectOutputs, hunspend, ok_bind, hrestore]
        exact if_neg (by decide)
      rw [disconnectBlock, if_neg (by decide)]
      simp only [show spendingBlock.vtx = [spendingCoinbase, spendingTx] from rfl, disconnectLoop,
        bind, Except.bind, htx]

/-! ## Reorganisations -/

/-- A block of the active chain, with its undo data. -/
structure Tip (env : ConnectEnv) where
  block : MemBlock env.toBlockEnv
  pindex : Uint256
  pprev : Uint256
  nHeight : ℕ
  undo : BlockUndo

/-- **`ConnectTip` for one block after another**, the last one first, each on a cache over the
coins so far. No output has a coin yet. -/
inductive ConnectsTips (env : ConnectEnv) (m : ChainstateManager) (coins₀ : CoinMap) :
    List (Tip env) → CoinMap → Prop
  | nil : ConnectsTips env m coins₀ [] coins₀
  | cons {tips : List (Tip env)} {tip : Tip env} {entry : IndexEntry} {c : CoinsViewCache}
      {below view' : CoinsView} : ConnectsTips env m coins₀ tips (cache c below).peekCoin →
      (cache c below).Coherent → m.blockIndex tip.pindex = some entry →
      entry.pprev = some tip.pprev → entry.nHeight = tip.nHeight → 0 < tip.nHeight →
      tip.nHeight < 2 ^ 31 →
      connectBlock env m tip.block tip.pindex (cache c below) false = .ok (view', some tip.undo) →
      (enforceBIP30 env.params.toParams m tip.pindex tip.nHeight tip.pprev = true ∨
        OutputsNew env.hash tip.block.vtx (cache c below).peekCoin) →
      ConnectsTips env m coins₀ (tip :: tips) view'.peekCoin

/-- **`DisconnectTip` for one block after another**: on any cache over the coins, it is
clean and leaves coins from which it goes on, down to `coins₀`. -/
def DisconnectsTips {env : ConnectEnv} (coins₀ : CoinMap) : List (Tip env) → CoinMap → Prop
  | [], coins => coins = coins₀
  | tip :: tips, coins => ∀ c below, (cache c below).Coherent → (cache c below).peekCoin = coins →
    ∃ view', disconnectBlock env.hash tip.block.toBlock tip.pindex tip.nHeight tip.pprev
        (some tip.undo) (cache c below) = .ok (view', true) ∧
      DisconnectsTips coins₀ tips view'.peekCoin

/-- **A reorganisation goes back cleanly**: blocks that were connected to coins which can be put
back are disconnected one by one, which ends at these coins. -/
theorem reorganisation_clean (env : ConnectEnv) (m : ChainstateManager) (coins₀ coins : CoinMap)
    (tips : List (Tip env)) (hstart : ∀ o coin, coins₀ o = some coin → Restorable coin)
    (h : ConnectsTips env m coins₀ tips coins) :
    DisconnectsTips coins₀ tips coins ∧ ∀ o coin, coins o = some coin → Restorable coin := by
  induction h with
  | nil => exact ⟨rfl, hstart⟩
  | @cons tips tip entry c below view' _ hview hentry hpprev hheight hpos hlt hok hnew ih =>
    obtain ⟨hback, hall⟩ := ih
    rw [← hheight] at hpos hlt hnew
    obtain ⟨-, -, coins', happlies, hstands⟩ := connectBlock_applies hentry hpprev hview hok hnew
    have hold : OldOrRestorable (fun _ => none) (cache c below).peekCoin :=
      fun o coin hcoin => .inr (hall o coin hcoin)
    obtain ⟨hrestorable, hundo⟩ := hold.blockApplies hpos hlt happlies fun _ _ _ _ _ => nofun
    rw [hstands.peekCoin_eq]
    refine ⟨fun c' below' hview' hpeek => ?_, fun o coin hcoin => ?_⟩
    · obtain ⟨v, clean, coins, hdisconnect, hv, -, hexact⟩ := disconnectBlock_of_applies
        (R := fun _ _ => True) (fun _ _ _ _ => id) tip.pindex tip.pprev hlt happlies hundo
        (StandsAt.of_coherent hview') trivial
      obtain ⟨rfl, rfl⟩ := hexact hpeek
      rw [← hheight]
      exact ⟨_, hdisconnect, (hv.setBestBlock tip.pprev).peekCoin_eq ▸ hback⟩
    · exact (hrestorable o coin hcoin).elim nofun id

def foldConnectEnv : ConnectEnv := { lengthConnectEnv with toBlockEnv := foldEnv }

def blockOver (prev : Uint256) (vtx : List Transaction) : Block where
  header :=
    { spendingHeader with
      hashPrevBlock := prev
      hashMerkleRoot := (blockMerkleRoot foldHash ⟨spendingHeader, vtx⟩).1 }
  vtx

def lowerBlock : MemBlock foldConnectEnv.toBlockEnv :=
  MemBlock.fresh foldEnv (blockOver 7 [spendingCoinbase, spendingTx]) spendingVtx_addressable

@[irreducible] def lowerHash : Uint256 := foldHash (serBlockHeader lowerBlock.header)

def upperBlock : MemBlock foldConnectEnv.toBlockEnv :=
  MemBlock.fresh foldEnv (blockOver lowerHash [{ spendingCoinbase with nLockTime := 1 }])
    (by decide +kernel)

@[irreducible] def upperHash : Uint256 := foldHash (serBlockHeader upperBlock.header)

def lowerEntry : IndexEntry :=
  { header := lowerBlock.header, pprev := some 7, nHeight := 6, nChainWork := BaseUint.zero }

def upperEntry : IndexEntry :=
  { header := upperBlock.header, pprev := some lowerHash, nHeight := 7
    nChainWork := BaseUint.zero }

def twoIndex : ChainstateManager where
  blockIndex hash :=
    if hash = upperHash then some upperEntry
    else if hash = lowerHash then some lowerEntry
    else spendingIndex.blockIndex hash
  failedValid _ := false
  bestHeader := some upperHash
  vChain := []

theorem twoBlocks_connect :
    ∃ r, connectBlock foldConnectEnv twoIndex lowerBlock lowerHash (spendingView 5) false = .ok r ∧
      ∃ r', connectBlock foldConnectEnv twoIndex upperBlock upperHash (cache {} r.1) false =
        .ok r' := by
  obtain ⟨r, hok, h⟩ := Ensures.exists_ok (P := fun r => Ensures
    (connectBlock foldConnectEnv twoIndex upperBlock upperHash (cache {} r.1) false)
      (fun _ => False) fun _ => True) (r := connectBlock foldConnectEnv twoIndex lowerBlock
        lowerHash (spendingView 5) false) (by decide +kernel)
  exact ⟨r, hok, h.exists_ok.imp fun _ => And.left⟩

theorem twoIndex_lower : twoIndex.blockIndex lowerHash = some lowerEntry ∧
    enforceBIP30 foldConnectEnv.params.toParams twoIndex lowerHash lowerEntry.nHeight 7 = true := by
  have hne : lowerHash ≠ upperHash := by decide +kernel
  exact ⟨by simp only [twoIndex, if_neg hne, if_true], by decide +kernel⟩

theorem twoIndex_upper : twoIndex.blockIndex upperHash = some upperEntry ∧
    enforceBIP30 foldConnectEnv.params.toParams twoIndex upperHash upperEntry.nHeight lowerHash =
      true :=
  ⟨by simp only [twoIndex, if_true], by decide +kernel⟩

/-- Two blocks, connected and taken back. -/
theorem reorganisation_clean_spending : ∃ view' view'' undo undo',
    connectBlock foldConnectEnv twoIndex lowerBlock lowerHash (spendingView 5) false =
        .ok (view', some undo) ∧
      connectBlock foldConnectEnv twoIndex upperBlock upperHash (cache {} view') false =
        .ok (view'', some undo') ∧ DisconnectsTips (spendingView 5).peekCoin
        [⟨upperBlock, upperHash, lowerHash, 7, undo'⟩, ⟨lowerBlock, lowerHash, 7, 6, undo⟩]
        view''.peekCoin := by
  obtain ⟨⟨view', _⟩, hok, ⟨⟨view'', _⟩, hok'⟩⟩ := twoBlocks_connect
  obtain ⟨undo, rfl⟩ := connectBlock_undo hok (by decide +kernel)
  obtain ⟨undo', rfl⟩ := connectBlock_undo hok' (by decide +kernel)
  obtain ⟨hentry, hbip30⟩ := twoIndex_lower
  obtain ⟨hentry', hbip30'⟩ := twoIndex_upper
  have hview := spendingView_coherent 5
  obtain ⟨-, -, _, -, hstands⟩ := connectBlock_applies hentry rfl hview hok (.inl hbip30)
  obtain ⟨hview', hpeek⟩ := coherent_of_empty hstands.coherent find_empty rfl rfl
  have htip : ConnectsTips foldConnectEnv twoIndex (spendingView 5).peekCoin
      [⟨lowerBlock, lowerHash, 7, 6, undo⟩] view'.peekCoin :=
    .cons .nil hview hentry rfl rfl (Nat.succ_pos 5) (show 6 < 2 ^ 31 by decide) hok (.inl hbip30)
  have htips : ConnectsTips foldConnectEnv twoIndex (spendingView 5).peekCoin
      [⟨upperBlock, upperHash, lowerHash, 7, undo'⟩, ⟨lowerBlock, lowerHash, 7, 6, undo⟩]
      view''.peekCoin :=
    .cons (hpeek ▸ htip) hview' hentry' rfl rfl (Nat.succ_pos 6) (show 7 < 2 ^ 31 by decide) hok'
      (.inl hbip30')
  refine ⟨view', view'', undo, undo', hok, hok', (reorganisation_clean _ twoIndex _ _ _ ?_ htips).1⟩
  intro o coin hcoin
  replace hcoin := (spendingView_peekCoin 5 o).symm.trans hcoin
  split_ifs at hcoin
  obtain rfl := some.inj hcoin
  exact ⟨by decide, by decide, by decide⟩

end Quarlcoin
