import Quarlcoin.Coins.Refinement
import Quarlcoin.Primitives.Size
import Quarlcoin.Validation.NoInflation
/-!
# Connecting a block — what it does to the coins

What `ConnectBlock` does to the map of coins, as relations: `Spends`, `Creates`, `Applies`.
`PaysFees` has the fees that it adds up; the coinbase takes no more than the subsidy and
them.
-/

namespace Quarlcoin

open Arith Coins CoinsView List Function Option UInt32 Ensures

/-- The coin that a transaction creates at height `nHeight`. -/
def createdCoin (fCoinbase : Bool) (nHeight : ℕ) (txout : TxOut) : Coin :=
  { out := txout, fCoinBase := fCoinbase, nHeight := BitVec.ofNat 31 nHeight }

/-- Inputs that are spent one after the other, with the coins moved out. -/
inductive Spends : CoinMap → List TxIn → List Coin → CoinMap → Prop
  | nil {coins : CoinMap} : Spends coins [] [] coins
  | cons {coins coins' : CoinMap} {txin : TxIn} {vin : List TxIn} {coin : Coin}
      {vprevout : List Coin} : coins txin.prevout = some coin →
      Spends (update coins txin.prevout none) vin vprevout coins' →
      Spends coins (txin :: vin) (coin :: vprevout) coins'

/-- Outputs that are added one after the other, from number `i` on. -/
inductive Creates (txid : Uint256) (fCoinbase : Bool) (nHeight : ℕ) :
    ℕ → List TxOut → CoinMap → CoinMap → Prop
  | nil {i : ℕ} {coins : CoinMap} : Creates txid fCoinbase nHeight i [] coins coins
  | skip {i : ℕ} {txout : TxOut} {vout : List TxOut} {coins coins' : CoinMap} :
      txout.scriptPubKey.isUnspendable = true →
      Creates txid fCoinbase nHeight (i + 1) vout coins coins' →
      Creates txid fCoinbase nHeight i (txout :: vout) coins coins'
  | add {i : ℕ} {txout : TxOut} {vout : List TxOut} {coins coins' : CoinMap} :
      txout.isNull = false → txout.scriptPubKey.isUnspendable = false →
      coins ⟨txid, ofNat i⟩ = none →
      Creates txid fCoinbase nHeight (i + 1) vout
        (update coins ⟨txid, ofNat i⟩
          (some (createdCoin fCoinbase nHeight txout))) coins' →
      Creates txid fCoinbase nHeight i (txout :: vout) coins coins'

/-- The transactions behind the coinbase, each with its undo data. -/
inductive Applies (hash : List UInt8 → Uint256) (nHeight : ℕ) :
    List Transaction → List (List Coin) → CoinMap → CoinMap → Prop
  | nil {coins : CoinMap} : Applies hash nHeight [] [] coins coins
  | cons {tx : Transaction} {vtx : List Transaction} {txundo : List Coin}
      {vtxundo : List (List Coin)} {coins coins₁ coins₂ coins' : CoinMap} :
      Spends coins tx.vin txundo coins₁ →
      Creates (tx.getHash hash) tx.isCoinBase nHeight 0 tx.vout coins₁ coins₂ →
      Applies hash nHeight vtx vtxundo coins₂ coins' →
      Applies hash nHeight (tx :: vtx) (txundo :: vtxundo) coins coins'

def spentValue (txundo : List Coin) : ℤ := (txundo.map fun coin => coin.out.nValue.toInt).sum

/-- Transactions that pay fees, with the sum before and after them; it is never
negative. -/
inductive PaysFees : ℤ → List Transaction → List (List Coin) → ℤ → Prop
  | nil {nFees : ℤ} : PaysFees nFees [] [] nFees
  | cons {nFees total : ℤ} {tx : Transaction} {vtx : List Transaction} {txundo : List Coin}
      {vtxundo : List (List Coin)} : 0 ≤ nFees + (spentValue txundo - valueOut tx.vout) →
      PaysFees (nFees + (spentValue txundo - valueOut tx.vout)) vtx vtxundo total →
      PaysFees nFees (tx :: vtx) (txundo :: vtxundo) total

/-- **What a block pays.** -/
structure BlockPays (params : Consensus.Params) (nHeight : ℕ) (block : Block) (undo : BlockUndo) :
    Prop where
  count : block.vtx.length ≤ maxBlockWeight
  checked : ∀ tx ∈ block.vtx, TxChecked tx
  pays : ∃ coinbase rest nFees, block.vtx = coinbase :: rest ∧
    PaysFees 0 rest undo.vtxundo nFees ∧
    valueOut coinbase.vout ≤ nFees + (getBlockSubsidy nHeight params).toInt

/-! ## A view that stands for a map -/

/-- The view shows the map and hides nothing; it came from `v₀`. -/
structure StandsAt (v₀ v : CoinsView) (coins : CoinMap) : Prop where
  sound : v.Sound
  peekCoin_eq : v.peekCoin = coins
  shadow_eq : v.shadow = fun _ => none
  tail_eq : v.layers.tail = v₀.layers.tail
  bestBlock_eq : ∀ hash, (v.setBestBlock hash).bestBlock = (v₀.setBestBlock hash).bestBlock
  decided : ∀ o, v₀.Decided o → v.Decided o
  isCache : v.IsCache

variable {v₀ v v' below : CoinsView} {coins coins' : CoinMap} {o : OutPoint} {coin : Coin}
  {tx : Transaction} {c : CoinsViewCache}

namespace StandsAt

theorem coherent (h : StandsAt v₀ v coins) : v.Coherent := h.sound.coherent h.shadow_eq

theorem exists_cache (h : StandsAt v₀ v coins) : ∃ c below, v = cache c below := by
  cases v with
  | base coins hash => exact h.isCache.elim
  | cache c below => exact ⟨c, below, rfl⟩

theorem of_coherent (h : (cache c below).Coherent) :
    StandsAt (cache c below) (cache c below) (cache c below).peekCoin :=
  ⟨h.sound, rfl, h.shadow_eq, rfl, fun _ => rfl, fun _ => id, trivial⟩

section

variable (h : StandsAt v₀ v coins)
include h

theorem change (hchanged : Changed v v' coins' fun _ => none) : StandsAt v₀ v' coins' where
  sound := hchanged.sound
  peekCoin_eq := hchanged.peekCoin_eq
  shadow_eq := hchanged.shadow_eq
  tail_eq := hchanged.tail_eq.trans h.tail_eq
  bestBlock_eq hash := (hchanged.bestBlock_eq hash).trans (h.bestBlock_eq hash)
  decided o ho := hchanged.decided o (by rw [h.shadow_eq]) (h.decided o ho)
  isCache := hchanged.isCache h.isCache

theorem look (hlook : Looks v v') : StandsAt v₀ v' coins := by
  unfold Looks at hlook
  rw [h.peekCoin_eq, h.shadow_eq] at hlook
  exact h.change hlook

theorem setBestBlock (hash : Uint256) : StandsAt v₀ (v.setBestBlock hash) coins := by
  obtain ⟨c, below, rfl⟩ := h.exists_cache
  exact ⟨⟨h.sound.1.congr rfl rfl rfl, h.sound.2.1, h.sound.2.2⟩, h.peekCoin_eq, h.shadow_eq,
    h.tail_eq, h.bestBlock_eq, h.decided, trivial⟩

/-- **Spending** takes the coin out of the map. -/
theorem spend {moved : Option Coin} (hok : v.spendCoin o = .ok (v', moved)) :
    StandsAt v₀ v' (update coins o none) ∧ ∀ coin, coins o = some coin → moved = some coin := by
  obtain ⟨hchanged, hmoved⟩ := h.sound.spendCoin hok
  rw [h.shadow_eq, h.peekCoin_eq, update_eq_self_iff.2 rfl] at hchanged
  rw [h.peekCoin_eq] at hmoved
  exact ⟨h.change hchanged, hmoved⟩

/-- **Adding** a coin that can be spent, with the truth told about overwriting. -/
theorem add {possibleOverwrite : Bool} (hok : v.addCoin o coin possibleOverwrite = .ok v')
    (hspendable : coin.out.scriptPubKey.isUnspendable = false)
    (hover : possibleOverwrite = false → coins o = none) :
    StandsAt v₀ v' (update coins o (some coin)) := by
  have hchanged := h.coherent.addCoin hok hspendable fun hpo => by rw [h.peekCoin_eq, hover hpo]
  rw [h.peekCoin_eq] at hchanged
  exact h.change hchanged

end

end StandsAt

variable {vin : List TxIn} {view : CoinsView} {r : CoinsView × Option BlockUndo}

theorem Spends.inputValue_eq {vprevout : List Coin}
    (h : Spends coins vin vprevout coins') (hnodup : (vin.map TxIn.prevout).Nodup) :
    inputValue coins vin = spentValue vprevout := by
  induction h with
  | nil => rfl
  | @cons coins coins' txin vin coin vprevout hcoin _ ih =>
    rw [map_cons, nodup_cons] at hnodup
    have hih := (inputs_update hnodup.1 none).2.symm.trans (ih hnodup.2)
    rw [inputValue] at hih
    rw [inputValue, map_cons, sum_cons, hih, hcoin, spentValue, spentValue,
      map_cons, sum_cons, coinValue, map_some, getD_some]

/-! ## Forwards -/

section

/-- **The inputs** that the checks have seen are spent. -/
theorem spendInputs_spends (h : StandsAt v₀ v coins)
    (hnodup : (vin.map TxIn.prevout).Nodup) (hseen : InputsSeen coins vin) :
    Ensures (spendInputs vin v) (fun _ => True) fun r =>
      ∃ coins', Spends coins vin r.2 coins' ∧ StandsAt v₀ r.1 coins' := by
  induction vin generalizing v coins with
  | nil => exact ⟨coins, .nil, h⟩
  | cons txin vin ih =>
    rw [map_cons, nodup_cons] at hnodup
    obtain ⟨coin, hcoin⟩ := hseen txin mem_cons_self
    refine bind (ensures_ofView (of_forall fun r hr => h.spend hr) fun _ => trivial)
      ?_
    rintro ⟨v₁, moved⟩ ⟨h₁, hmoved⟩
    obtain rfl : moved = some coin := hmoved coin hcoin
    refine bind (ih h₁ hnodup.2 ((inputs_update hnodup.1 none).1 (forall_mem_cons.1 hseen).2)) ?_
    rintro ⟨v₂, vprevout⟩ ⟨coins', hspends, h₂⟩
    exact ⟨coins', .cons hcoin hspends, h₂⟩

/-- **The outputs** are created where there is no coin. -/
theorem addCoinsLoop_creates {txid : Uint256} {fCoinbase : Bool} {nHeight i : ℕ}
    {vout : List TxOut} (h : StandsAt v₀ v coins) (hlength : i + vout.length ≤ 2 ^ 32)
    (hdecided : ∀ j, i ≤ j → j < i + vout.length → v₀.Decided ⟨txid, ofNat j⟩)
    (hnew : fCoinbase = true → ∀ j, i ≤ j → j < i + vout.length → coins ⟨txid, ofNat j⟩ = none) :
    Ensures (addCoinsLoop txid fCoinbase nHeight i vout v) (fun _ => True) fun v' =>
      ∃ coins', Creates txid fCoinbase nHeight i vout coins coins' ∧ StandsAt v₀ v' coins' := by
  induction vout generalizing v coins i with
  | nil => exact ⟨coins, .nil, h⟩
  | cons txout vout ih =>
    rw [length_cons] at hlength hdecided hnew
    refine bind (of_forall fun v₁ hadd => hadd) fun v₁ hadd => ?_
    obtain ⟨hvalue, ⟨hun, hsame⟩ | ⟨hun, -, hfree⟩⟩ := h.sound.addCoin hadd
    · subst hsame
      refine (ih h (by omega) (fun j hj hlt => hdecided j (by omega) (by omega))
        fun hcb j hj hlt => hnew hcb j (by omega) (by omega)).imp ?_
      rintro v' ⟨coins', hcreates, h'⟩
      exact ⟨coins', .skip hun hcreates, h'⟩
    · have hnone : coins ⟨txid, ofNat i⟩ = none := by
        cases hcb : fCoinbase with
        | true => exact hnew hcb i le_rfl (by omega)
        | false =>
          rw [← h.peekCoin_eq]
          exact hfree hcb (h.decided _ (hdecided i le_rfl (by omega)))
      have h₁ := h.add hadd hun fun _ => hnone
      refine (ih h₁ (by omega) (fun j hj hlt => hdecided j (by omega) (by omega))
        fun hcb j hj hlt => ?_).imp ?_
      · -- the numbers of the outputs fit, so this is another outpoint
        have hne : (⟨txid, ofNat j⟩ : OutPoint) ≠ ⟨txid, ofNat i⟩ := by
          intro heq
          have hn := congrArg (fun o : OutPoint => o.n.toNat) heq
          simp only [toNat_ofNat'] at hn
          omega
        rw [update_of_ne hne]
        exact hnew hcb j (by omega) (by omega)
      · rintro v' ⟨coins', hcreates, h'⟩
        exact ⟨coins', .add hvalue hun hnone hcreates, h'⟩

theorem TxChecked.length_vout (h : TxChecked tx) : tx.vout.length ≤ 2 ^ 32 := by
  have hsize := h.size
  rw [length_serialize_false, maxBlockWeight] at hsize
  have hle := length_le_serVector serTxOut (v := tx.vout) fun txout _ => by
    rw [length_serTxOut]
    omega
  omega

/-- The outputs of a transaction have no coin yet, as far as the view decides. -/
def OutputsDecided (hash : List UInt8 → Uint256) (v : CoinsView) (tx : Transaction) : Prop :=
  ∀ i < tx.vout.length, v.Decided ⟨tx.getHash hash, ofNat i⟩

variable {env : ConnectEnv} {m : ChainstateManager} {ctx : ConnectContext} {s : ConnectState}

/-- **`UpdateCoins`**, whose inputs the checks have seen. A coinbase spends none. -/
theorem updateCoins_applies (nHeight : ℕ) (h : StandsAt v₀ v coins) (htx : TxChecked tx)
    (hdecided : OutputsDecided env.hash v₀ tx)
    (hseen : tx.isCoinBase = false → InputsSeen coins tx.vin)
    (hnew : tx.isCoinBase = true → ∀ i < tx.vout.length,
      coins ⟨tx.getHash env.hash, ofNat i⟩ = none) :
    Ensures (updateCoins env.hash tx v nHeight) (fun _ => True) fun r =>
      ∃ coins₁ coins₂, (tx.isCoinBase = true → coins₁ = coins) ∧
        (tx.isCoinBase = false → Spends coins tx.vin r.2 coins₁) ∧
        Creates (tx.getHash env.hash) tx.isCoinBase nHeight 0 tx.vout coins₁ coins₂ ∧
        StandsAt v₀ r.1 coins₂ := by
  have hadd : ∀ {v₁ txundo coins₁}, (tx.isCoinBase = true → coins₁ = coins) →
      (tx.isCoinBase = false → Spends coins tx.vin txundo coins₁) → StandsAt v₀ v₁ coins₁ →
      Ensures (ofView (addCoins env.hash tx nHeight v₁) >>= fun view => .ok (view, txundo))
        (fun _ => True) fun r => ∃ coins₁ coins₂, (tx.isCoinBase = true → coins₁ = coins) ∧
          (tx.isCoinBase = false → Spends coins tx.vin r.2 coins₁) ∧
          Creates (tx.getHash env.hash) tx.isCoinBase nHeight 0 tx.vout coins₁ coins₂ ∧
          StandsAt v₀ r.1 coins₂ := by
    intro v₁ txundo coins₁ hsame hspends h₁
    refine bind (ensures_ofView (addCoinsLoop_creates h₁ (by simpa using htx.length_vout)
      (fun j _ hj => hdecided j (by omega)) (fun hcb j _ hj => ?_)) fun _ => trivial) fun v₂ => ?_
    · rw [hsame hcb]
      exact hnew hcb j (by omega)
    · rintro ⟨coins₂, hcreates, h₂⟩
      exact ⟨coins₁, coins₂, hsame, hspends, hcreates, h₂⟩
  rw [updateCoins]
  split_ifs with hcb
  · exact hadd (fun _ => rfl) (by simp [hcb]) h
  · refine bind (spendInputs_spends h htx.nodup (hseen (by simpa using hcb))) ?_
    rintro ⟨v₁, txundo⟩ ⟨coins₁, hspends, h₁⟩
    exact hadd (by simp [hcb]) (fun _ => hspends) h₁

variable (h : StandsAt v₀ s.view coins)
include h

/-- **A round of the loop.** -/
theorem connectTx_applies {first : Bool} (htx : TxChecked tx)
    (hdecided : OutputsDecided env.hash v₀ tx) (hnew : tx.isCoinBase = true → ∀ i < tx.vout.length,
      coins ⟨tx.getHash env.hash, ofNat i⟩ = none) :
    Ensures (connectTx env m ctx first tx s) (fun _ => True) fun s' => ∃ txundo coins₁ coins₂,
        s'.vtxundo = (if first then s.vtxundo else s.vtxundo ++ [txundo]) ∧
        (tx.isCoinBase = true → coins₁ = coins ∧ s'.nFees = s.nFees) ∧
        (tx.isCoinBase = false → Spends coins tx.vin txundo coins₁ ∧ moneyRange s'.nFees = true ∧
          s'.nFees.toInt = s.nFees.toInt + (spentValue txundo - valueOut tx.vout)) ∧
        Creates (tx.getHash env.hash) tx.isCoinBase ctx.entry.nHeight 0 tx.vout coins₁ coins₂ ∧
        StandsAt v₀ s'.view coins₂ := by
  refine bind (connectChecks_spec h.sound).weaken ?_
  rintro s₁ ⟨hlook, hundo, hcoinbase, hpaid⟩
  have hseen : tx.isCoinBase = false → InputsSeen coins tx.vin := fun hcb => by
    rw [← h.peekCoin_eq]
    exact (hpaid hcb).seen
  refine bind ((updateCoins_applies _ (h.look hlook) htx hdecided hseen hnew).mapError
    fun _ _ => trivial) ?_
  rintro ⟨v₂, txundo⟩ ⟨coins₁, coins₂, hsame, hspends, hcreates, h₂⟩
  refine ⟨txundo, coins₁, coins₂, by rw [← hundo], fun hcb => ⟨hsame hcb, hcoinbase hcb⟩,
    fun hcb => ⟨hspends hcb, (hpaid hcb).range, ?_⟩, hcreates, h₂⟩
  rw [← (hspends hcb).inputValue_eq htx.nodup, ← h.peekCoin_eq]
  exact (hpaid hcb).fees

/-- **The loop** behind the coinbase. -/
theorem connectLoop_applies {vtx : List Transaction}
    (htxs : ∀ tx ∈ vtx, TxChecked tx) (hcb : ∀ tx ∈ vtx, tx.isCoinBase = false)
    (hdecided : ∀ tx ∈ vtx, OutputsDecided env.hash v₀ tx) (hfees : moneyRange s.nFees = true) :
    Ensures (connectLoop env m ctx false vtx s) (fun _ => True) fun s' =>
      ∃ vtxundo coins', s'.vtxundo = s.vtxundo ++ vtxundo ∧
        Applies env.hash ctx.entry.nHeight vtx vtxundo coins coins' ∧
        StandsAt v₀ s'.view coins' ∧ moneyRange s'.nFees = true ∧
        PaysFees s.nFees.toInt vtx vtxundo s'.nFees.toInt := by
  induction vtx generalizing s coins with
  | nil => exact ⟨[], coins, by rw [append_nil], .nil, h, hfees, .nil⟩
  | cons tx vtx ih =>
    rw [forall_mem_cons] at htxs hcb hdecided
    refine bind (connectTx_applies h htxs.1 hdecided.1 (by simp [hcb.1])) fun s₁ => ?_
    rintro ⟨txundo, coins₁, coins₂, hundo, -, hspends, hcreates, h₂⟩
    obtain ⟨hspends, hfees₁, hpaid⟩ := hspends hcb.1
    refine (ih h₂ htxs.2 hcb.2 hdecided.2 hfees₁).imp ?_
    rintro s' ⟨vtxundo, coins', hundo', happlies, h', hfees', hpays⟩
    rw [hpaid] at hpays
    refine ⟨txundo :: vtxundo, coins', ?_, .cons hspends hcreates happlies, h', hfees',
      .cons (hpaid ▸ (moneyRange_iff.1 hfees₁).1) hpays⟩
    rw [hundo', hundo, if_neg (by simp), append_assoc]
    rfl

end

/-! ## The block -/

variable (hash : List UInt8 → Uint256)

/-- What connecting a block does to the map of coins. -/
def BlockApplies (nHeight : ℕ) (vtx : List Transaction)
    (vtxundo : List (List Coin)) (coins coins' : CoinMap) : Prop :=
  ∃ coinbase rest coins₁, vtx = coinbase :: rest ∧
    Creates (coinbase.getHash hash) coinbase.isCoinBase nHeight 0 coinbase.vout coins coins₁ ∧
    Applies hash nHeight rest vtxundo coins₁ coins'

/-- No output of the transactions has a coin in the map. -/
def OutputsNew (vtx : List Transaction) (coins : CoinMap) : Prop :=
  ∀ tx ∈ vtx, ∀ i < tx.vout.length, coins ⟨tx.getHash hash, ofNat i⟩ = none

section

variable {env : ConnectEnv} {m : ChainstateManager} {pindex pprev : Uint256} {entry : IndexEntry}

theorem moneyRange_zero : moneyRange 0 = true := by decide

theorem connectTransactions_applies {block : Block}
    (h : StandsAt (cache c below) v coins) (hcoins : coins = (cache c below).peekCoin)
    (hpprev : entry.pprev = some pprev) (hbody : BodyChecked block)
    (hnew : enforceBIP30 env.params.toParams m pindex entry.nHeight pprev = true ∨
      OutputsNew env.hash block.vtx coins) :
    Ensures (connectTransactions env m block pindex entry v) (fun _ => True) fun r =>
      BlockPays env.params.toParams entry.nHeight block r.2 ∧
      ∃ coins', BlockApplies env.hash entry.nHeight block.vtx r.2.vtxundo coins coins' ∧
        StandsAt (cache c below) r.1 coins' := by
  obtain ⟨coinbase, vtx, hvtx, hcb, hrest⟩ := coinbaseCheck_eq_ok hbody.coinbase
  have htxs : ∀ tx ∈ block.vtx, TxChecked tx := fun tx htx =>
    checkTransaction_eq_ok (hbody.transactions tx htx)
  have hall := htxs
  rw [connectTransactions]
  split
  · rename_i fScriptChecks pprev' coinbase' vtx' _ hpprev' hvtx'
    obtain rfl := some.inj (hpprev.symm.trans hpprev')
    refine bind (checkBIP30_spec h.sound).weaken ?_
    rintro v₁ ⟨hlook, hchecked⟩
    have hnew' : OutputsNew env.hash block.vtx coins := by
      rcases hnew with henforce | hnew
      · rw [h.peekCoin_eq] at hchecked
        exact hchecked henforce
      · exact hnew
    have hdecided : ∀ tx ∈ block.vtx, OutputsDecided env.hash (cache c below) tx := by
      intro tx htx i hi
      refine decided_of_peekCoin ?_
      rw [← hcoins]
      exact hnew' tx htx i hi
    obtain ⟨rfl, rfl⟩ := cons.inj (hvtx.symm.trans hvtx')
    rw [hvtx, forall_mem_cons] at hall hdecided
    rw [hvtx]
    refine bind (P := fun s₂ => ∃ coins', BlockApplies env.hash entry.nHeight
        (coinbase :: vtx) s₂.vtxundo coins coins' ∧ StandsAt (cache c below) s₂.view coins' ∧
        moneyRange s₂.nFees = true ∧ PaysFees 0 vtx s₂.vtxundo s₂.nFees.toInt) ?_ ?_
    · refine bind (connectTx_applies (h.look hlook) hall.1 hdecided.1 fun _ =>
        hnew' coinbase (hvtx ▸ mem_cons_self)) ?_
      rintro s₁ ⟨txundo, coins₁, coins₂, hundo₁, hfirst, -, hcreates, h₁⟩
      obtain ⟨rfl, hfees₁⟩ := hfirst hcb
      refine (connectLoop_applies h₁ hall.2 hrest hdecided.2 (hfees₁ ▸ moneyRange_zero)).imp ?_
      rintro s₂ ⟨vtxundo, coins', hundo₂, happlies, h₂, hfees₂, hpays⟩
      rw [hundo₁, if_pos rfl, nil_append] at hundo₂
      rw [hfees₁] at hpays
      rw [← hundo₂] at happlies hpays
      exact ⟨coins', ⟨coinbase, vtx, coins₂, rfl, hcreates, happlies⟩, h₂, hfees₂, hpays⟩
    · rintro s₂ ⟨coins', happlies, h₂, hfees₂, hpays⟩
      refine bind (connectFinish_spec hfees₂).weaken fun _ hreward => ?_
      exact ⟨⟨hbody.count, htxs, coinbase, vtx, _, hvtx, hpays, hreward⟩, coins', happlies, h₂⟩
  · exact trivial

variable {block : MemBlock env.toBlockEnv}

/-- **What `ConnectBlock` goes through** when it succeeds. -/
theorem connectBlock_eq_ok (hok : connectBlock env m block pindex view false = .ok r) :
    BodyChecked block.toBlock ∧ ∃ entry, m.blockIndex pindex = some entry ∧
      entry.pprev.getD 0 = view.getBestBlock.2 ∧
      (env.hash (serBlockHeader block.header) = env.params.hashGenesisBlock ∧ r.2 = none ∨
        ∃ v₁ undo, connectTransactions env m block.toBlock pindex entry view.getBestBlock.1 =
          .ok (v₁, undo) ∧ r = (v₁.setBestBlock pindex, some undo)) := by
  rw [connectBlock] at hok
  split at hok
  · cases hok
  rename_i entry hentry
  split at hok
  · cases hok
  split at hok
  · split at hok <;> cases hok
  rename_i hcheck
  refine ⟨bodyCheck_eq_ok.1 (blockCheck_eq_ok.1 (checkBlock_eq_ok hcheck).1).2.2, entry, hentry, ?_⟩
  dsimp only at hok
  split at hok
  · cases hok
  rename_i hbest
  refine ⟨not_not.1 hbest, ?_⟩
  split at hok
  · rename_i hgenesis
    obtain rfl := Except.ok.inj hok
    exact .inl ⟨hgenesis, rfl⟩
  obtain ⟨⟨v₁, undo⟩, htxs, hrest⟩ := bind_eq_ok_iff.1 hok
  rw [if_neg (by simp)] at hrest
  split at hrest
  · cases hrest
  · exact .inr ⟨v₁, undo, htxs, (Except.ok.inj hrest).symm⟩

/-- **What `ConnectBlock` does** above the genesis block, where no output of the block has a coin
yet. -/
theorem connectBlock_applies {view' : CoinsView} {undo : BlockUndo}
    (hentry : m.blockIndex pindex = some entry) (hpprev : entry.pprev = some pprev)
    (hview : (cache c below).Coherent)
    (hok : connectBlock env m block pindex (cache c below) false = .ok (view', some undo))
    (hnew : enforceBIP30 env.params.toParams m pindex entry.nHeight pprev = true ∨
      OutputsNew env.hash block.vtx (cache c below).peekCoin) : pprev = (cache c below).bestBlock ∧
    BlockPays env.params.toParams entry.nHeight block.toBlock undo ∧
    ∃ coins', BlockApplies env.hash entry.nHeight block.vtx undo.vtxundo
        (cache c below).peekCoin coins' ∧ StandsAt (cache c below) view' coins' := by
  obtain ⟨hlook, -, -⟩ := hview.getBestBlock
  have hstands := (StandsAt.of_coherent hview).look hlook
  obtain ⟨hbody, entry', hentry', hbest, hcases⟩ := connectBlock_eq_ok hok
  obtain rfl := some.inj (hentry.symm.trans hentry')
  rw [hpprev] at hbest
  obtain ⟨-, hnone⟩ | ⟨v₁, undo₁, htxs, hr⟩ := hcases
  · cases hnone
  obtain ⟨rfl, hundo⟩ := Prod.mk.inj hr
  obtain rfl := some.inj hundo
  obtain ⟨hpays, coins', happlies, h'⟩ :=
    (connectTransactions_applies hstands rfl hpprev hbody hnew).of_eq_ok htxs
  exact ⟨hbest, hpays, coins', happlies, h'.setBestBlock pindex⟩

/-- Every block but the genesis block has undo data. -/
theorem connectBlock_undo (hok : connectBlock env m block pindex view false = .ok r)
    (hhash : env.hash (serBlockHeader block.header) ≠ env.params.hashGenesisBlock) :
    ∃ undo, r.2 = some undo := by
  obtain ⟨-, -, -, -, ⟨hgenesis, -⟩ | ⟨v₁, undo, -, rfl⟩⟩ := connectBlock_eq_ok hok
  · exact absurd hgenesis hhash
  · exact ⟨undo, rfl⟩

end

end Quarlcoin
