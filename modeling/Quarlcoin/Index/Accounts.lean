import Mathlib.Tactic.LinearCombination
import Quarlcoin.Common.Aggregate
import Quarlcoin.Common.Indexed
import Quarlcoin.Index.CoinStats
import Quarlcoin.Validation.Recovery
/-!
# The coin statistics index — one block

Each loop of `CustomAppend` moves the totals by known amounts (`Moved`): they are those of
the UTXO set, what is left unclaimed is never negative, and no sum overflows
(`Follows.customAppend`). `RevertBlock` takes the hash back (`Follows.revertTxs`).
-/

namespace Quarlcoin

open Aggregate Arith Coins List Prod Nat Bool Int Int64

namespace CoinStatsIndex

variable {G : Type} [AddCommGroup G] (env : Env G)

/-! ## Statistics of a UTXO set -/

/-- A hash, a count, a size and an amount. -/
abbrev Stats (G : Type) : Type := G × UInt64 × UInt64 × ℤ

/-- What a coin adds to the statistics. -/
def weight (o : OutPoint) (coin : Coin) : Stats G :=
  (env.element o coin, 1, getBogoSize coin.out.scriptPubKey, coin.out.nValue.toInt)

noncomputable def utxoStats (coins : CoinMap) : Stats G := aggregate (weight env) coins

/-- What outputs add to the statistics, from number `j` on. -/
def createdStats (txid : Uint256) (isCoinbase : Bool) (height : ℕ) : ℕ → List TxOut → Stats G
  | _, [] => 0
  | j, out :: vout => (if out.scriptPubKey.isUnspendable then 0
      else weight env ⟨txid, UInt32.ofNat j⟩ (createdCoin isCoinbase height out)) +
      createdStats txid isCoinbase height (j + 1) vout

/-- What spent coins take from the statistics. -/
def spentStats : List TxIn → List Coin → Stats G
  | txin :: vin, coin :: vprevout => weight env txin.prevout coin + spentStats vin vprevout
  | _, _ => 0

variable {txid : Uint256} {isCoinbase : Bool} {height j i n : ℕ} {vout : List TxOut} {x : ℤ}
  {a : CAmount} {vtx : List Transaction} {vtxundo : List (List Coin)} {coins coins' : CoinMap}
  {vin : List TxIn} {vprevout : List Coin} {b : BlockInfo}

section

variable {env}

theorem utxoStats_creates (h : Creates txid isCoinbase height j vout coins coins') :
    utxoStats env coins' = utxoStats env coins + createdStats env txid isCoinbase height j vout := by
  induction h with
  | nil => rw [createdStats, add_zero]
  | skip hun _ ih => rw [createdStats, if_pos hun, zero_add, ih]
  | add _ hun hnone _ ih =>
    rw [createdStats, if_neg (by simp [hun]), ih, utxoStats, aggregate_update, hnone,
      Option.elim_none, Option.elim_some, sub_zero, utxoStats, add_assoc]

variable (h : Spends coins vin vprevout coins')
include h

theorem utxoStats_spends :
    utxoStats env coins' = utxoStats env coins - spentStats env vin vprevout := by
  induction h with
  | nil => exact (sub_zero _).symm
  | cons hcoin _ ih =>
    rw [spentStats, ih, utxoStats, aggregate_update, hcoin, Option.elim_none,
      Option.elim_some, add_zero, utxoStats, sub_sub]

theorem spentStats_amount : (spentStats env vin vprevout).2.2.2 = spentValue vprevout := by
  induction h with
  | nil => rfl
  | cons _ _ ih =>
    rw [spentStats, snd_add, snd_add, snd_add, ih]
    rfl

omit h

theorem utxoStats_eq (env : Env G) (coins : CoinMap) : utxoStats env coins =
      (aggregate env.element coins, aggregate (fun _ _ => 1) coins,
        aggregate (fun _ coin => getBogoSize coin.out.scriptPubKey) coins,
        aggregate (fun _ coin => coin.out.nValue.toInt) coins) := by
  have hfst := map_aggregate (w := weight env) (f := coins) (AddMonoidHom.fst _ _)
  have hsnd := map_aggregate (w := weight env) (f := coins)
    ((AddMonoidHom.fst _ _).comp (AddMonoidHom.snd _ _))
  have htrd := map_aggregate (w := weight env) (f := coins)
    (((AddMonoidHom.fst _ _).comp (AddMonoidHom.snd _ _)).comp (AddMonoidHom.snd _ _))
  have hlast := map_aggregate (w := weight env) (f := coins)
    (((AddMonoidHom.snd _ _).comp (AddMonoidHom.snd _ _)).comp (AddMonoidHom.snd _ _))
  exact Prod.ext hfst (Prod.ext hsnd (Prod.ext htrd hlast))

theorem utxoStats_amount (env : Env G) (coins : CoinMap) :
    (utxoStats env coins).2.2.2 = totalValue coins := by
  rw [utxoStats_eq]
  refine Finset.sum_congr rfl fun o _ => ?_
  cases coins o <;> rfl

theorem inRange_spends (h : Spends coins vin vprevout coins') (hrange : InRange coins) :
    InRange coins' ∧ ∀ coin ∈ vprevout, 0 ≤ coin.out.nValue.toInt := by
  induction h with
  | nil => exact ⟨hrange, fun _ hmem => absurd hmem not_mem_nil⟩
  | cons hcoin _ ih =>
    obtain ⟨hrange', hrest⟩ := ih (hrange.update fun _ hnone => nomatch hnone)
    exact ⟨hrange', forall_mem_cons.2 ⟨(moneyRange_iff.1 (hrange _ _ hcoin)).1, hrest⟩⟩

theorem inRange_creates (h : Creates txid isCoinbase height j vout coins coins')
    (hvalues : ∀ out ∈ vout, moneyRange out.nValue = true) (hrange : InRange coins) :
    InRange coins' := by
  induction h with
  | nil => exact hrange
  | skip _ _ ih => exact ih (forall_mem_cons.1 hvalues).2 hrange
  | add _ _ _ _ ih =>
    rw [forall_mem_cons] at hvalues
    refine ih hvalues.2 (hrange.update fun coin hcoin => ?_)
    obtain rfl := Option.some.inj hcoin
    exact hvalues.1

end

/-! ## Moving the totals -/

namespace Memory

variable (m : Memory G)

def stats : Stats G :=
  (m.muhash, m.transactionOutputCount, m.bogoSize, m.totalAmount.toInt)

/-- The amount that is unspent, or in outputs that cannot be spent. -/
def held : ℤ := m.totalAmount.toInt + m.totalUnspendablesScripts.toInt

/-- What came in, less what went out and what is there. -/
def balance : BitVec 256 :=
  m.totalNewOutputsExCoinbaseAmount + m.totalCoinbaseAmount - m.totalPrevoutSpentAmount -
    BitVec.ofInt 256 m.totalAmount.toInt

/-- All that ever came in or went out. -/
def volume : ℕ :=
  m.totalNewOutputsExCoinbaseAmount.toNat + m.totalCoinbaseAmount.toNat +
    m.totalPrevoutSpentAmount.toNat

/-- What the transactions of a block leave as it is. -/
def others : CAmount × CAmount × CAmount × CAmount × Uint256 :=
  (m.totalSubsidy, m.totalUnspendablesGenesisBlock, m.totalUnspendablesBip30,
    m.totalUnspendablesUnclaimedRewards, m.currentBlockHash)

/-- The amounts that the transactions change are not negative. -/
structure Solvent : Prop where
  amount : 0 ≤ m.totalAmount.toInt
  scripts : 0 ≤ m.totalUnspendablesScripts.toInt

/-- **The totals were moved**: the statistics by `d`, the amounts by `worth`, and at most
`turnover` came in or went out. -/
structure Moved (m m' : Memory G) (d : Stats G) (worth : ℤ) (turnover : ℕ) : Prop where
  stats : m'.stats = m.stats + d
  held : m'.held = m.held + worth
  balance : m'.balance = m.balance
  volume : m'.volume ≤ m.volume + turnover
  others : m'.others = m.others

theorem Moved.refl : Moved m m 0 0 0 :=
  ⟨(add_zero _).symm, (add_zero _).symm, rfl, le_rfl, rfl⟩

variable {m m' : Memory G} {d : Stats G} {worth : ℤ} {turnover : ℕ}
  (h : Moved m m' d worth turnover)
include h

theorem Moved.trans {m'' : Memory G} {d' : Stats G} {worth' : ℤ} {turnover' : ℕ}
    (h' : Moved m' m'' d' worth' turnover') :
    Moved m m'' (d + d') (worth + worth') (turnover + turnover') where
  stats := by rw [h'.stats, h.stats, add_assoc]
  held := by rw [h'.held, h.held, add_assoc]
  balance := h'.balance.trans h.balance
  volume := by
    have := h.volume
    have := h'.volume
    omega
  others := h'.others.trans h.others

omit h

theorem Moved.le (turnover' : ℕ) (h : Moved m m' d worth turnover) (hle : turnover ≤ turnover') :
    Moved m m' d worth turnover' :=
  { h with volume := h.volume.trans (Nat.add_le_add_left hle _) }

end Memory

theorem fitsAmount_of_bounds (h : -2 ^ 63 ≤ x) (h' : x < 2 ^ 63) : fitsAmount x = true := by
  rw [fitsAmount, and_eq_true, decide_eq_true_iff, decide_eq_true_iff]
  omega

theorem addAmounts_of_bounds {b : CAmount} (h : -2 ^ 63 ≤ a.toInt + b.toInt)
    (h' : a.toInt + b.toInt < 2 ^ 63) :
    addAmounts a b = .ok (a + b) ∧ (a + b).toInt = a.toInt + b.toInt := by
  have hfits := fitsAmount_of_bounds h h'
  exact ⟨if_pos hfits, toInt_add_of_fits hfits⟩

theorem toNat_amount256 (h : 0 ≤ a.toInt) : ((amount256 a).toNat : ℤ) = a.toInt := by
  rw [← toInt_toBitVec] at h ⊢
  rw [BitVec.toInt_eq_toNat_cond] at h ⊢
  split
  · rfl
  · omega

theorem amount256_eq_ofInt (h : 0 ≤ a.toInt) : amount256 a = BitVec.ofInt 256 a.toInt := by
  rw [← toNat_amount256 h, BitVec.ofInt_natCast, BitVec.ofNat_toNat, BitVec.setWidth_eq]

theorem valueOut_nonneg (h : ∀ out ∈ vout, moneyRange out.nValue = true) : 0 ≤ valueOut vout := by
  refine sum_nonneg fun x hx => ?_
  obtain ⟨out, hout, rfl⟩ := mem_map.1 hx
  exact (moneyRange_iff.1 (h out hout)).1

theorem toNat_add_le (x y : BitVec 256) : (x + y).toNat ≤ x.toNat + y.toNat := by exact mod_le _ _

section

variable {m : Memory G} (outpoint : OutPoint)

/-- **An output** adds its weight, unless it cannot be spent. -/
theorem appendOutput_spec (isCoinbase : Bool) (height : ℕ)
    {out : TxOut} (hm : m.Solvent) (hvalue : 0 ≤ out.nValue.toInt)
    (hheld : m.held + out.nValue.toInt < 2 ^ 63) :
    ∃ m', appendOutput env outpoint isCoinbase height out m = .ok m' ∧ m'.Solvent ∧
      Memory.Moved m m' (if out.scriptPubKey.isUnspendable then 0
        else weight env outpoint (createdCoin isCoinbase height out)) out.nValue.toInt
        out.nValue.toInt.toNat := by
  obtain ⟨hamount, hscripts⟩ := hm
  rw [Memory.held] at hheld
  cases hun : out.scriptPubKey.isUnspendable with
  | true =>
    obtain ⟨hadd, hsum⟩ := addAmounts_of_bounds (a := m.totalUnspendablesScripts)
      (b := out.nValue) (by omega) (by omega)
    refine ⟨{ m with totalUnspendablesScripts := m.totalUnspendablesScripts + out.nValue },
      by rw [appendOutput, if_pos hun, hadd]; rfl, ⟨hamount, ?_⟩, ?_⟩
    · dsimp only
      omega
    · refine ⟨(add_zero _).symm, ?_, rfl, le_add_right _ _, rfl⟩
      dsimp only [Memory.held]
      omega
  | false =>
    obtain ⟨hadd, hsum⟩ := addAmounts_of_bounds (a := m.totalAmount)
      (b := out.nValue) (by omega) (by omega)
    have h256 := amount256_eq_ofInt hvalue
    have hnat := toNat_amount256 hvalue
    rw [appendOutput, if_neg (by simp [hun]), hadd]
    refine ⟨_, rfl, ⟨?_, hscripts⟩, ?_, ?_, ?_, ?_, rfl⟩
    · dsimp only
      omega
    · dsimp only [Memory.stats]
      rw [hsum]
      rfl
    · dsimp only [Memory.held]
      omega
    · dsimp only [Memory.balance]
      rw [hsum, BitVec.ofInt_add, ← h256]
      cases isCoinbase <;> simp only [false_eq_true, if_true, if_false] <;> ring
    · dsimp only [Memory.volume]
      have hnew := toNat_add_le m.totalNewOutputsExCoinbaseAmount (amount256 out.nValue)
      have hcoinbase := toNat_add_le m.totalCoinbaseAmount (amount256 out.nValue)
      cases isCoinbase <;> simp only [false_eq_true, if_true, if_false] <;> omega

/-- **The loop over the outputs.** -/
theorem appendOutputs_spec (txid : Uint256) (isCoinbase : Bool) (height j : ℕ)
    (hm : m.Solvent) (hvalues : ∀ out ∈ vout, moneyRange out.nValue = true)
    (hheld : m.held + valueOut vout < 2 ^ 63) :
    ∃ m', appendOutputs env txid isCoinbase height j vout m = .ok m' ∧ m'.Solvent ∧
      Memory.Moved m m' (createdStats env txid isCoinbase height j vout) (valueOut vout)
        (valueOut vout).toNat := by
  induction vout generalizing m j with
  | nil => exact ⟨m, rfl, hm, Memory.Moved.refl m⟩
  | cons out vout ih =>
    rw [forall_mem_cons] at hvalues
    have hvalue := (moneyRange_iff.1 hvalues.1).1
    have hrest : 0 ≤ valueOut vout := valueOut_nonneg hvalues.2
    have hcons : valueOut (out :: vout) = out.nValue.toInt + valueOut vout := by
      rw [valueOut, map_cons, sum_cons, valueOut]
    rw [hcons] at hheld ⊢
    obtain ⟨m₁, hout, hm₁, hmoved₁⟩ := appendOutput_spec env
      ⟨txid, UInt32.ofNat j⟩ isCoinbase height hm hvalue (by omega)
    have hheld₁ := hmoved₁.held
    obtain ⟨m', hloop, hm', hmoved⟩ := ih (j + 1) hm₁ hvalues.2 (by omega)
    refine ⟨m', by simp only [appendOutputs, hout, ok_bind, hloop], hm', ?_⟩
    rw [toNat_add hvalue hrest]
    exact hmoved₁.trans hmoved

theorem createdStats_amount_nonneg (txid : Uint256) (isCoinbase : Bool)
    (height j : ℕ) (hvalues : ∀ out ∈ vout, moneyRange out.nValue = true) :
    0 ≤ (createdStats env txid isCoinbase height j vout).2.2.2 := by
  induction vout generalizing j with
  | nil => exact le_rfl
  | cons out vout ih =>
    rw [forall_mem_cons] at hvalues
    refine add_nonneg ?_ (ih (j + 1) hvalues.2)
    split
    · exact le_rfl
    · exact (moneyRange_iff.1 hvalues.1).1

/-- **A spent coin** takes its weight away. -/
theorem spendPrevout_spec {coin : Coin} (hm : m.Solvent)
    (hvalue : 0 ≤ coin.out.nValue.toInt) (hle : coin.out.nValue.toInt ≤ m.totalAmount.toInt) :
    ∃ m', spendPrevout env outpoint coin m = .ok m' ∧ m'.Solvent ∧
      Memory.Moved m m' (-weight env outpoint coin) (-coin.out.nValue.toInt)
        coin.out.nValue.toInt.toNat := by
  obtain ⟨hamount, hscripts⟩ := hm
  have hlt := m.totalAmount.toInt_lt
  have hfits := fitsAmount_of_bounds (x := m.totalAmount.toInt - coin.out.nValue.toInt)
    (by omega) (by omega)
  have hsub : subAmounts m.totalAmount coin.out.nValue = .ok _ := if_pos hfits
  have hdiff := toInt_sub_of_fits hfits
  have h256 := amount256_eq_ofInt hvalue
  have hnat := toNat_amount256 hvalue
  rw [spendPrevout, hsub]
  refine ⟨_, rfl, ⟨?_, hscripts⟩, ?_, ?_, ?_, ?_, rfl⟩
  · dsimp only
    omega
  · dsimp only [Memory.stats]
    rw [hdiff, ← sub_eq_add_neg]
    rfl
  · dsimp only [Memory.held]
    omega
  · dsimp only [Memory.balance]
    rw [hdiff, sub_eq_add_neg m.totalAmount.toInt, BitVec.ofInt_add, BitVec.ofInt_neg, ← h256]
    ring
  · dsimp only [Memory.volume]
    have := toNat_add_le m.totalPrevoutSpentAmount (amount256 coin.out.nValue)
    omega

/-- **The loop over the spent coins.** -/
theorem spendPrevouts_spec (hspends : Spends coins vin vprevout coins') (hm : m.Solvent)
    (hvalues : ∀ coin ∈ vprevout, 0 ≤ coin.out.nValue.toInt)
    (hle : spentValue vprevout ≤ m.totalAmount.toInt) :
    ∃ m', spendPrevouts env vin vprevout m = .ok m' ∧ m'.Solvent ∧
      Memory.Moved m m' (-spentStats env vin vprevout) (-spentValue vprevout)
        (spentValue vprevout).toNat := by
  induction hspends generalizing m with
  | nil =>
    refine ⟨m, rfl, hm, ?_⟩
    have hrefl := Memory.Moved.refl m
    rw [← neg_zero] at hrefl
    exact hrefl
  | @cons coins coins' txin vin coin vprevout _ _ ih =>
    rw [forall_mem_cons] at hvalues
    have hcons : spentValue (coin :: vprevout) = coin.out.nValue.toInt + spentValue vprevout := by
      rw [spentValue, map_cons, sum_cons, spentValue]
    have hrest : 0 ≤ spentValue vprevout := by
      refine sum_nonneg fun x hx => ?_
      obtain ⟨coin', h', rfl⟩ := mem_map.1 hx
      exact hvalues.2 coin' h'
    rw [hcons] at hle ⊢
    obtain ⟨m₁, hspend, hm₁, hmoved₁⟩ := spendPrevout_spec env txin.prevout
      hm hvalues.1 (by omega)
    have hamount₁ : m₁.totalAmount.toInt = m.totalAmount.toInt - coin.out.nValue.toInt :=
      congrArg (fun d : Stats G => d.2.2.2) hmoved₁.stats
    obtain ⟨m', hloop, hm', hmoved⟩ := ih hm₁ hvalues.2 (by omega)
    refine ⟨m', by simp only [spendPrevouts, hspend, ok_bind, hloop], hm', ?_⟩
    rw [toNat_add hvalues.1 hrest, spentStats, neg_add, neg_add]
    exact hmoved₁.trans hmoved

variable {env} (blockSubsidy : CAmount)

/-- **A transaction behind the coinbase.** Its outputs are added before its inputs are
spent. -/
theorem appendTx_spec {tx : Transaction}
    {txundo : List Coin} {coins₁ coins₂ : CoinMap} (hspends : Spends coins tx.vin txundo coins₁)
    (hcreates : Creates (tx.getHash env.hash) tx.isCoinBase b.height 0 tx.vout coins₁ coins₂)
    (htx : TxChecked tx) (hcb : tx.isCoinBase = false)
    (hundo : b.undoData.vtxundo[i]? = some txundo)
    (hm : m.Solvent) (hstats : m.stats = utxoStats env coins) (hrange : InRange coins)
    (hheld : m.held + maxMoney.toInt < 2 ^ 63) :
    ∃ m', appendTx env b blockSubsidy (i + 1) tx m = .ok m' ∧ m'.Solvent ∧
      Memory.Moved m m' (utxoStats env coins₂ - utxoStats env coins)
        (valueOut tx.vout - spentValue txundo) (2 ^ 64) := by
  have hout := htx.total
  obtain ⟨m₁, hadd, hm₁, hmoved₁⟩ := appendOutputs_spec env (tx.getHash env.hash)
    tx.isCoinBase b.height 0 hm htx.values (by omega)
  obtain ⟨hrange₁, hvalues⟩ := inRange_spends hspends hrange
  -- what is left after the inputs is not negative
  have hspent : spentValue txundo ≤ m.totalAmount.toInt := by
    have hleft := totalValue_nonneg hrange₁
    rw [← utxoStats_amount env, utxoStats_spends hspends, snd_sub, snd_sub,
      snd_sub, spentStats_amount hspends, ← hstats] at hleft
    exact sub_nonneg.1 hleft
  have hamount : m.totalAmount.toInt ≤ m₁.totalAmount.toInt := by
    have hdiff : m₁.totalAmount.toInt = m.totalAmount.toInt + (createdStats env
        (tx.getHash env.hash) tx.isCoinBase b.height 0 tx.vout).2.2.2 :=
      congrArg (fun d : Stats G => d.2.2.2) hmoved₁.stats
    have := createdStats_amount_nonneg env (tx.getHash env.hash) tx.isCoinBase b.height 0
      htx.values
    omega
  obtain ⟨m', hspend, hm', hmoved⟩ := spendPrevouts_spec env hspends hm₁ hvalues
    (by omega)
  refine ⟨m', ?_, hm', ?_⟩
  · rw [hcb] at hadd
    rw [appendTx, if_neg (by simp [hcb])]
    simp only [hadd, ok_bind, hcb, false_eq_true, if_false, Nat.add_sub_cancel, hundo, hspend]
  · have hlt := m.totalAmount.toInt_lt
    have hmax : maxMoney.toInt = 2100000000000000 := rfl
    have hall := (hmoved₁.trans hmoved).le (2 ^ 64) (by omega)
    rw [utxoStats_creates hcreates, utxoStats_spends hspends, sub_eq_add_neg (valueOut tx.vout)]
    convert hall using 1
    abel

/-- **The transactions behind the coinbase.** With the fees so far, the amount held does
not change. -/
theorem appendTxs_spec {nFees total : ℤ}
    (happlies : Applies env.hash b.height vtx vtxundo coins coins')
    (hpays : PaysFees nFees vtx vtxundo total) (hfees : 0 ≤ nFees)
    (htxs : ∀ tx ∈ vtx, TxChecked tx) (hcb : ∀ tx ∈ vtx, tx.isCoinBase = false)
    (hundo : b.undoData.vtxundo.drop i = vtxundo) (hm : m.Solvent)
    (hstats : m.stats = utxoStats env coins) (hrange : InRange coins)
    (hheld : m.held + nFees + maxMoney.toInt < 2 ^ 63) :
    ∃ m', appendTxs env b blockSubsidy (i + 1) vtx m = .ok m' ∧ m'.Solvent ∧
      Memory.Moved m m' (utxoStats env coins' - utxoStats env coins) (nFees - total)
        (vtx.length * 2 ^ 64) := by
  induction happlies generalizing m i nFees with
  | nil =>
    cases hpays
    refine ⟨m, rfl, hm, ?_⟩
    rw [sub_self, sub_self]
    exact Memory.Moved.refl m
  | @cons tx vtx txundo vtxundo coins coins₁ coins₂ coins' hspends hcreates _ ih =>
    cases hpays with
    | cons hnonneg hpays =>
    rw [forall_mem_cons] at htxs hcb
    obtain ⟨hat, hdrop⟩ := Indexed.getElem?_of_drop hundo
    have hrange₁ := inRange_creates hcreates htxs.1.values (inRange_spends hspends hrange).1
    obtain ⟨m₁, htx, hm₁, hmoved₁⟩ := appendTx_spec blockSubsidy hspends hcreates htxs.1
      hcb.1 hat hm hstats hrange (by omega)
    have hstats₁ : m₁.stats = utxoStats env coins₂ := by rw [hmoved₁.stats, hstats, add_sub_cancel]
    have hheld₁ := hmoved₁.held
    obtain ⟨m', hloop, hm', hmoved⟩ := ih hpays hnonneg htxs.2 hcb.2 hdrop hm₁ hstats₁
      hrange₁ (by omega)
    refine ⟨m', by simp only [appendTxs, htx, ok_bind, hloop], hm', ?_⟩
    have hall := hmoved₁.trans hmoved
    rw [length_cons, succ_mul, add_comm]
    convert hall using 1
    · abel
    · ring

end

/-! ## The accounts of a block -/

/-- **The totals after a block** at height `n` with the UTXO set `coins`. -/
structure CoinTotals.Accounts (n : ℕ) (coins : CoinMap) (t : CoinTotals) : Prop where
  stats : (t.transactionOutputCount, t.bogoSize, t.totalAmount.toInt) = (utxoStats env coins).2
  subsidy : t.totalSubsidy.toInt = issued env.params n
  genesisBlock : 0 ≤ t.totalUnspendablesGenesisBlock.toInt
  bip30 : 0 ≤ t.totalUnspendablesBip30.toInt
  scripts : 0 ≤ t.totalUnspendablesScripts.toInt
  unclaimedRewards : 0 ≤ t.totalUnspendablesUnclaimedRewards.toInt
  /-- Every amount that was issued is unspent or cannot be spent. -/
  claimed : t.totalUnspendablesGenesisBlock.toInt + t.totalUnspendablesBip30.toInt +
    t.totalUnspendablesScripts.toInt + t.totalUnspendablesUnclaimedRewards.toInt +
    t.totalAmount.toInt = t.totalSubsidy.toInt
  balance : t.totalNewOutputsExCoinbaseAmount + t.totalCoinbaseAmount -
    t.totalPrevoutSpentAmount - BitVec.ofInt 256 t.totalAmount.toInt = 0
  volume : t.totalNewOutputsExCoinbaseAmount.toNat + t.totalCoinbaseAmount.toNat +
    t.totalPrevoutSpentAmount.toNat ≤ n * 2 ^ 96

/-- The memory stands at such a block. -/
structure Memory.StandsAt (n : ℕ) (coins : CoinMap) (m : Memory G) : Prop where
  muhash : m.muhash = (utxoStats env coins).1
  accounts : CoinTotals.Accounts env n coins m.toCoinTotals

section

variable {env} {m : Memory G}

theorem toInt_ofBitVec_ofInt (h : 0 ≤ x) (h' : x < 2 ^ 63) :
    (BitVec.ofInt 256 x).toNat ≤ 2 ^ 63 - 1 ∧
      (ofBitVec ((BitVec.ofInt 256 x).setWidth 64)).toInt = x := by
  obtain ⟨n, rfl⟩ := eq_ofNat_of_zero_le h
  rw [BitVec.ofInt_natCast]
  refine ⟨?_, ?_⟩
  · rw [BitVec.toNat_ofNat]
    omega
  · rw [← toInt_toBitVec, toBitVec_ofBitVec, BitVec.setWidth_ofNat_of_le (by omega),
      BitVec.toInt_ofNat', bmod_eq_of_le (by omega) (by omega)]

/-- **What is unclaimed** is not negative, and is all that is missing. -/
theorem claimRewards_spec (hash : Uint256) (hm : m.Solvent) (hstats : m.stats = utxoStats env coins)
    (hsubsidy : m.totalSubsidy.toInt = issued env.params n) (hbalance : m.balance = 0)
    (hvolume : m.volume ≤ n * 2 ^ 96) (hgenesis : 0 ≤ m.totalUnspendablesGenesisBlock.toInt)
    (hbip30 : 0 ≤ m.totalUnspendablesBip30.toInt)
    (hunclaimed : 0 ≤ m.totalUnspendablesUnclaimedRewards.toInt)
    (hle : m.totalUnspendablesGenesisBlock.toInt + m.totalUnspendablesBip30.toInt + m.held +
      m.totalUnspendablesUnclaimedRewards.toInt ≤ m.totalSubsidy.toInt) :
    ∃ unclaimed, claimRewards m = .ok { m with totalUnspendablesUnclaimedRewards := unclaimed } ∧
      Memory.StandsAt env n coins
        { m with totalUnspendablesUnclaimedRewards := unclaimed, currentBlockHash := hash } := by
  obtain ⟨hamount, hscripts⟩ := hm
  rw [Memory.held] at hle
  have hlt := m.totalSubsidy.toInt_lt
  obtain ⟨hadd₁, hsum₁⟩ := addAmounts_of_bounds (a := m.totalUnspendablesGenesisBlock)
    (b := m.totalUnspendablesBip30) (by omega) (by omega)
  obtain ⟨hadd₂, hsum₂⟩ := addAmounts_of_bounds
    (a := m.totalUnspendablesGenesisBlock + m.totalUnspendablesBip30)
    (b := m.totalUnspendablesScripts) (by omega) (by omega)
  obtain ⟨hadd₃, hsum₃⟩ := addAmounts_of_bounds
    (a := m.totalUnspendablesGenesisBlock + m.totalUnspendablesBip30 + m.totalUnspendablesScripts)
    (b := m.totalUnspendablesUnclaimedRewards) (by omega) (by omega)
  set unspendable := m.totalUnspendablesGenesisBlock + m.totalUnspendablesBip30 +
    m.totalUnspendablesScripts + m.totalUnspendablesUnclaimedRewards
  have hrewards : m.totalPrevoutSpentAmount + amount256 m.totalSubsidy -
      (m.totalNewOutputsExCoinbaseAmount + m.totalCoinbaseAmount + amount256 unspendable) =
      BitVec.ofInt 256 (m.totalSubsidy.toInt + (-m.totalAmount.toInt + -unspendable.toInt)) := by
    rw [amount256_eq_ofInt (by omega), amount256_eq_ofInt (by omega), BitVec.ofInt_add,
      BitVec.ofInt_add, BitVec.ofInt_neg, BitVec.ofInt_neg]
    rw [Memory.balance] at hbalance
    linear_combination -hbalance
  obtain ⟨hnat, hint⟩ := toInt_ofBitVec_ofInt
    (x := m.totalSubsidy.toInt + (-m.totalAmount.toInt + -unspendable.toInt)) (by omega) (by omega)
  rw [claimRewards]
  simp only [hadd₁, hadd₂, hadd₃, ok_bind, hrewards, if_pos hnat]
  obtain ⟨hadd, hsum⟩ := addAmounts_of_bounds (a := m.totalUnspendablesUnclaimedRewards)
    (b := ofBitVec ((BitVec.ofInt 256
      (m.totalSubsidy.toInt + (-m.totalAmount.toInt + -unspendable.toInt))).setWidth 64))
    (by omega) (by omega)
  rw [hadd]
  refine ⟨_, rfl, congrArg fst hstats, congrArg snd hstats, hsubsidy, hgenesis, hbip30, hscripts,
    ?_, ?_, hbalance, hvolume⟩ <;> dsimp only <;> omega

/-- What a block has to be for the index to follow it. -/
structure Follows (env : Env G) (b : BlockInfo) (coins coins' : CoinMap) : Prop where
  connects : Connects env.hash b.hash b.height b.data b.undoData coins coins'
  new : isBIP30Repeat b.hash b.height = false
  spendable : isBIP30Unspendable b.hash b.height = false
  pays : BlockPays env.params b.height b.data b.undoData

/-- **The transactions of a block.** -/
theorem Follows.appendTxs (h : Follows env b coins coins') (blockSubsidy : CAmount)
    (hm : m.Solvent) (hstats : m.stats = utxoStats env coins) (hrange : InRange coins)
    (hheld : m.held < 2 ^ 62) :
    ∃ m' worth, appendTxs env b blockSubsidy 0 b.data.vtx m = .ok m' ∧ m'.Solvent ∧
      worth ≤ (getBlockSubsidy b.height env.params).toInt ∧
      Memory.Moved m m' (utxoStats env coins' - utxoStats env coins) worth (2 ^ 96) := by
  obtain ⟨coinbase, rest, hvtx, hcb, hcbs, -⟩ := h.connects.stores
  obtain ⟨coinbase', rest', coins₁, hvtx', hcreates, happlies⟩ := h.connects.new h.new
  obtain ⟨coinbase'', rest'', nFees, hvtx'', hpays, hreward⟩ := h.pays.pays
  obtain ⟨rfl, rfl⟩ := cons.inj (hvtx.symm.trans hvtx')
  obtain ⟨rfl, rfl⟩ := cons.inj (hvtx.symm.trans hvtx'')
  have htxs := h.pays.checked
  have hcount := h.pays.count
  rw [hvtx] at htxs hcount
  rw [forall_mem_cons] at htxs
  have hmax : maxMoney.toInt = 2100000000000000 := rfl
  have hout := htxs.1.total
  obtain ⟨m₁, hadd, hm₁, hmoved₁⟩ := appendOutputs_spec env
    (coinbase.getHash env.hash) true b.height 0 hm htxs.1.values (by omega)
  rw [hcb] at hcreates
  have hstats₁ : m₁.stats = utxoStats env coins₁ := by
    rw [hmoved₁.stats, hstats, utxoStats_creates hcreates]
  have hheld₁ := hmoved₁.held
  obtain ⟨m', hloop, hm', hmoved⟩ := appendTxs_spec blockSubsidy happlies hpays le_rfl
    htxs.2 hcbs (drop_zero) hm₁ hstats₁ (inRange_creates hcreates htxs.1.values hrange)
    (by omega)
  refine ⟨m', valueOut coinbase.vout + (0 - nFees), ?_, hm', by omega, ?_⟩
  · have htx : appendTx env b blockSubsidy 0 coinbase m = .ok m₁ := by
      rw [appendTx, if_neg (by simp [h.spendable]), hcb, hadd]
      rfl
    simp only [hvtx, CoinStatsIndex.appendTxs, htx, ok_bind, hloop]
  · have hlen : rest.length + 1 ≤ 32000000 := hcount
    have hall := (hmoved₁.trans hmoved).le (2 ^ 96) (by omega)
    rw [utxoStats_creates hcreates] at hall
    convert hall using 1
    abel

omit [AddCommGroup G] in
theorem inRange_applies
    (h : Applies env.hash n vtx vtxundo coins coins') (htxs : ∀ tx ∈ vtx, TxChecked tx)
    (hrange : InRange coins) : InRange coins' := by
  induction h with
  | nil => exact hrange
  | cons hspends hcreates _ ih =>
    rw [forall_mem_cons] at htxs
    exact ih htxs.2 (inRange_creates hcreates htxs.1.values (inRange_spends hspends hrange).1)

omit [AddCommGroup G] in
theorem Follows.inRange (h : Follows env b coins coins') (hrange : InRange coins) :
    InRange coins' := by
  obtain ⟨coinbase, rest, coins₁, hvtx, hcreates, happlies⟩ := h.connects.new h.new
  have htxs := h.pays.checked
  rw [hvtx, forall_mem_cons] at htxs
  exact inRange_applies happlies htxs.2 (inRange_creates hcreates htxs.1.values hrange)

theorem Memory.StandsAt.stats_eq (h : Memory.StandsAt env n coins m) :
    m.stats = utxoStats env coins := by
  rw [Memory.stats, h.muhash, h.accounts.stats]

/-- The entry under a height that `CustomAppend` writes. -/
def IndexDB.put (db : IndexDB G) (height : ℕ) (value : Uint256 × DBVal) : IndexDB G :=
  { db with heightIndex := Function.update db.heightIndex height (some (serPair value)) }

/-- **`CustomAppend`** above the genesis block. -/
theorem Follows.customAppend (h : Follows env b coins coins') (hheight : b.height = n + 1)
    (hprev : b.prevHash = some m.currentBlockHash) (hstands : Memory.StandsAt env n coins m)
    (hrange : InRange coins) (hissued : issued env.params (n + 1) < 2 ^ 62) (db : IndexDB G) :
    ∃ m', customAppend env b m db = .ok (m', db.put b.height (b.hash, m'.entry env)) ∧
      m'.currentBlockHash = b.hash ∧ Memory.StandsAt env b.height coins' m' ∧ InRange coins' := by
  obtain ⟨hstats, hsubsidy, hgenesis, hbip30, hscripts, hunclaimed, hclaimed, hbalance₀, hvolume₀⟩ :=
    hstands.accounts
  have hbounds := getBlockSubsidy_bounds b.height env.params
  have hsucc := issued_succ env.params n
  rw [← hheight] at hsucc hissued
  have hamount : 0 ≤ m.totalAmount.toInt := by
    have htotal : m.totalAmount.toInt = (utxoStats env coins).2.2.2 :=
      congrArg (fun d : UInt64 × UInt64 × ℤ => d.2.2) hstats
    rw [htotal, utxoStats_amount]
    exact totalValue_nonneg hrange
  obtain ⟨hadd, hsum⟩ := addAmounts_of_bounds (a := m.totalSubsidy)
    (b := getBlockSubsidy b.height env.params) (by omega) (by omega)
  set m₀ : Memory G :=
    { m with totalSubsidy := m.totalSubsidy + getBlockSubsidy b.height env.params }
  have hheld : m₀.held = m.totalAmount.toInt + m.totalUnspendablesScripts.toInt := rfl
  obtain ⟨m₁, worth, htxs, hm₁, hworth, hmoved⟩ := h.appendTxs (m := m₀)
    (getBlockSubsidy b.height env.params) ⟨hamount, hscripts⟩ hstands.stats_eq hrange (by omega)
  have hothers := hmoved.others
  simp only [Memory.others, Prod.mk.injEq, ← Int64.toInt_inj, m₀] at hothers
  obtain ⟨hsub₁, hgenesis₁, hbip30₁, hunclaimed₁, -⟩ := hothers
  have hheld₁ := hmoved.held
  have hstats₁ : m₁.stats = utxoStats env coins' := by
    rw [hmoved.stats, show m₀.stats = utxoStats env coins from hstands.stats_eq, add_sub_cancel]
  have hvolume := hmoved.volume
  have hvolume₀ : m₀.volume ≤ n * 2 ^ 96 := hvolume₀
  obtain ⟨unclaimed, hclaim, hstands'⟩ := claimRewards_spec (n := b.height) b.hash hm₁ hstats₁
    (by omega) (hmoved.balance.trans hbalance₀) (by omega) (by omega) (by omega) (by omega)
    (by omega)
  refine ⟨_, ?_, rfl, hstands', h.inRange hrange⟩
  have hpos : b.height > 0 := by omega
  simp only [CoinStatsIndex.customAppend, hadd, bind, Except.bind, if_pos hpos, hprev, ne_eq]
  rw [htxs]
  simp only [hclaim]
  rfl

/-- **`CustomAppend`** on the genesis block, whose coins cannot be spent. -/
theorem customAppend_genesis (env : Env G) (hash : Uint256) (hheight : b.height = 0)
    (db : IndexDB G) : ∃ m', customAppend env b { muhash := 0, currentBlockHash := hash } db =
        .ok (m', db.put b.height (b.hash, m'.entry env)) ∧
      m'.currentBlockHash = b.hash ∧ Memory.StandsAt env 0 (fun _ => none) m' := by
  have hbounds := getBlockSubsidy_bounds b.height env.params
  have hzero : (0 : CAmount).toInt = 0 := rfl
  obtain ⟨hadd, hsum⟩ := addAmounts_of_bounds (a := 0) (b := getBlockSubsidy b.height env.params)
    (by omega) (by omega)
  set m₀ : Memory G :=
    { muhash := 0, currentBlockHash := hash
      totalSubsidy := 0 + getBlockSubsidy b.height env.params
      totalUnspendablesGenesisBlock := 0 + getBlockSubsidy b.height env.params }
  have hheld : m₀.held = 0 := rfl
  have hbip30 : m₀.totalUnspendablesBip30.toInt = 0 := rfl
  have hunclaimed₀ : m₀.totalUnspendablesUnclaimedRewards.toInt = 0 := rfl
  have hsubsidy : m₀.totalSubsidy.toInt = m₀.totalUnspendablesGenesisBlock.toInt := rfl
  have hgenesis : 0 ≤ m₀.totalUnspendablesGenesisBlock.toInt := by
    change 0 ≤ (0 + getBlockSubsidy b.height env.params : CAmount).toInt
    omega
  have hbalance : m₀.balance = 0 := by
    change (0 + 0 - 0 - BitVec.ofInt 256 (0 : CAmount).toInt : BitVec 256) = 0
    decide
  have hissued : m₀.totalSubsidy.toInt = issued env.params 0 := by
    rw [hsum, hheight, issued, Finset.sum_range_one, hzero, zero_add]
  obtain ⟨unclaimed, hclaim, hstands⟩ := claimRewards_spec b.hash ⟨le_rfl, le_rfl⟩
    (aggregate_none (w := weight env)).symm hissued hbalance (zero_le _) hgenesis (by omega)
    (by omega) (by omega)
  refine ⟨_, ?_, rfl, hstands⟩
  have hpos : ¬ b.height > 0 := by omega
  simp only [CoinStatsIndex.customAppend, hadd, ok_bind, if_neg hpos]
  rw [hclaim]
  rfl

/-! ## Taking a block back -/

theorem revertOutputs_eq (g : G) : revertOutputs env txid isCoinbase height j vout g =
      g - (createdStats env txid isCoinbase height j vout).1 := by
  induction vout generalizing j g with
  | nil => exact (sub_zero g).symm
  | cons out vout ih =>
    rw [revertOutputs, ih, createdStats, fst_add, ← sub_sub]
    congr 1
    split
    · exact (sub_zero g).symm
    · rfl

theorem restorePrevouts_eq (h : Spends coins vin vprevout coins') (g : G) :
    restorePrevouts env vin vprevout g = .ok (g + (spentStats env vin vprevout).1) := by
  induction h generalizing g with
  | nil => exact congrArg Except.ok (add_zero g).symm
  | cons _ _ ih =>
    rw [restorePrevouts, ih, add_assoc]
    rfl

/-- **The transactions behind the coinbase**, taken back from the first to the last. -/
theorem revertTxs_spec (happlies : Applies env.hash b.height vtx vtxundo coins coins')
    (hcb : ∀ tx ∈ vtx, tx.isCoinBase = false) (hundo : b.undoData.vtxundo.drop i = vtxundo)
    (g : G) : revertTxs env b (i + 1) vtx g =
      .ok (g - ((utxoStats env coins').1 - (utxoStats env coins).1)) := by
  induction happlies generalizing i g with
  | nil => rw [revertTxs, sub_self, sub_zero]
  | @cons tx vtx txundo vtxundo coins coins₁ coins₂ coins' hspends hcreates _ ih =>
    rw [forall_mem_cons] at hcb
    obtain ⟨hat, hdrop⟩ := Indexed.getElem?_of_drop hundo
    have htx : revertTx env b (i + 1) tx g =
        .ok (g - ((utxoStats env coins₂).1 - (utxoStats env coins).1)) := by
      rw [revertTx, if_neg (by simp [hcb.1])]
      simp only [hcb.1, false_eq_true, if_false, Nat.add_sub_cancel, hat]
      rw [hcb.1] at hcreates
      rw [revertOutputs_eq, restorePrevouts_eq hspends, utxoStats_creates hcreates,
        utxoStats_spends hspends, fst_add, fst_sub]
      abel_nf
    simp only [revertTxs, htx, ok_bind, ih hcb.2 hdrop]
    abel_nf

/-- **The block is taken back.** -/
theorem Follows.revertTxs (h : Follows env b coins coins') (g : G) :
    revertTxs env b 0 b.data.vtx g =
      .ok (g - ((utxoStats env coins').1 - (utxoStats env coins).1)) := by
  obtain ⟨coinbase, rest, hvtx, hcb, hcbs, -⟩ := h.connects.stores
  obtain ⟨coinbase', rest', coins₁, hvtx', hcreates, happlies⟩ := h.connects.new h.new
  obtain ⟨rfl, rfl⟩ := cons.inj (hvtx.symm.trans hvtx')
  rw [hcb] at hcreates
  have htx : revertTx env b 0 coinbase g =
      .ok (g - ((utxoStats env coins₁).1 - (utxoStats env coins).1)) := by
    rw [revertTx, if_neg (by simp [h.spendable])]
    simp only [hcb, if_true, revertOutputs_eq]
    rw [utxoStats_creates hcreates, fst_add, add_sub_cancel_left]
  simp only [hvtx, CoinStatsIndex.revertTxs, htx, ok_bind, revertTxs_spec happlies hcbs drop_zero]
  abel_nf

end

end CoinStatsIndex

end Quarlcoin
