import Quarlcoin.Validation.Undo
/-!
# The supply and `MAX_MONEY`

The unspent coins of a chain are worth no more than what its blocks were allowed to issue.
On the main and the test network this passes `MAX_MONEY` half way through the first halving
interval (`issued_le_maxMoney_iff`); before that no choice of different coins has a total
that is out of range.
-/

namespace Quarlcoin

open Arith Coins CoinsView Ensures List

/-! ## What is issued -/

variable {h n nSpendHeight : ℕ} {vout : List TxOut} {start : CAmount}
  {coins : OutPoint → Option Coin}

section

variable {params : Consensus.Params} {interval : ℕ}

section

variable (hint : params.nSubsidyHalvingInterval = interval)
include hint

theorem getBlockSubsidy_of_lt
    (hlt : h < interval) : (getBlockSubsidy h params).toInt = 5000000000 := by
  have hzero : (h : ℤ).tdiv interval = 0 :=
    Int.tdiv_eq_zero_of_lt (Int.natCast_nonneg h) (Int.ofNat_lt.2 hlt)
  simp only [getBlockSubsidy, hint, hzero]
  rfl

theorem getBlockSubsidy_of_le (hpos : 0 < interval) (hle : 64 * interval ≤ h) :
    (getBlockSubsidy h params).toInt = 0 := by
  have hhalvings : (64 : ℤ) ≤ (h : ℤ).tdiv interval := by
    rw [Int.tdiv_eq_ediv_of_nonneg (Int.natCast_nonneg h)]
    exact (Int.le_ediv_iff_mul_le (by exact_mod_cast hpos)).2 (by exact_mod_cast hle)
  simp only [getBlockSubsidy, hint, hhalvings]
  rfl

theorem issued_of_lt (hlt : n < interval) : issued params n = (n + 1) * 5000000000 := by
  induction n with
  | zero =>
    rw [issued, Finset.sum_range_one, getBlockSubsidy_of_lt hint hlt]
    rfl
  | succ n ih =>
    rw [issued_succ, ih (Nat.lt_of_succ_lt hlt), getBlockSubsidy_of_lt hint hlt]
    push_cast
    ring

/-- After 64 halvings nothing is issued. -/
theorem issued_le (hpos : 0 < interval) (n : ℕ) :
    issued params n ≤ min (n + 1) (64 * interval) * 5000000000 := by
  induction n with
  | zero =>
    rw [issued, Finset.sum_range_one, getBlockSubsidy_of_lt hint hpos]
    omega
  | succ n ih =>
    rw [issued_succ]
    by_cases hle : 64 * interval ≤ n + 1
    · rw [getBlockSubsidy_of_le hint hpos hle]
      omega
    · have hbound := (getBlockSubsidy_bounds (n + 1) params).2
      omega

end

theorem issued_mono (params : Consensus.Params) {n' : ℕ} (h : n ≤ n') :
    issued params n ≤ issued params n' := by
  induction h with
  | refl => exact le_rfl
  | @step k _ ih =>
    have hnonneg := (getBlockSubsidy_bounds (k + 1) params).1
    rw [issued_succ]
    omega

end

/-- A network whose interval is 840000 issues `MAX_MONEY` with its first 420000
blocks. -/
theorem issued_le_maxMoney_iff_of_interval {params : Consensus.Params}
    (hint : params.nSubsidyHalvingInterval = (840000 : ℕ)) (n : ℕ) :
    issued params n ≤ maxMoney.toInt ↔ n < 420000 := by
  rw [toInt_maxMoney]
  constructor
  · intro hle
    by_contra hge
    have hmono := issued_mono params (not_lt.1 hge)
    rw [issued_of_lt hint (by omega)] at hmono
    omega
  · intro hlt
    rw [issued_of_lt hint (by omega)]
    omega

/-- **Where the supply stays within `MAX_MONEY`.** -/
theorem issued_le_maxMoney_iff (chain : ChainType) (n : ℕ) :
    issued (createChainParams chain).consensus n ≤ maxMoney.toInt ↔
      chain = .regtest ∨ n < 420000 := by
  cases chain with
  | main => exact (issued_le_maxMoney_iff_of_interval rfl n).trans (by simp)
  | testnet => exact (issued_le_maxMoney_iff_of_interval rfl n).trans (by simp)
  | regtest =>
    have hint : regTestParams.consensus.nSubsidyHalvingInterval = (150 : ℕ) := rfl
    have hle := issued_le hint (by omega) n
    rw [toInt_maxMoney]
    simp only [createChainParams, true_or, iff_true]
    omega

/-! ## Totals of coins -/

section

variable {v : CoinsView}

/-- The loop of `CheckTransaction` accepts a total within `MAX_MONEY`. -/
theorem totalOut_of_le (hstart : 0 ≤ start.toInt) (hvalues : ∀ txout ∈ vout, 0 ≤ txout.nValue.toInt)
    (hle : start.toInt + valueOut vout ≤ maxMoney.toInt) :
    ∃ total, totalOut start vout = .ok total := by
  induction vout generalizing start with
  | nil => exact ⟨start, rfl⟩
  | cons txout vout ih =>
    rw [forall_mem_cons] at hvalues
    rw [valueOut, map_cons, sum_cons, ← valueOut] at hle
    have hrest : 0 ≤ valueOut vout := by
      refine sum_nonneg fun value hvalue => ?_
      obtain ⟨txout', hmem, rfl⟩ := mem_map.1 hvalue
      exact hvalues.2 txout' hmem
    have hmax := toInt_maxMoney
    have hsum : (start + txout.nValue).toInt = start.toInt + txout.nValue.toInt :=
      toInt_add_of_moneyRange (moneyRange_iff.2 ⟨hstart, by omega⟩)
        (moneyRange_iff.2 ⟨hvalues.1, by omega⟩)
    have hrange : moneyRange (start + txout.nValue) = true := moneyRange_iff.2 ⟨by omega, by omega⟩
    have hzero : (0 : CAmount).toInt ≤ txout.nValue.toInt := hvalues.1
    rw [totalOut, if_neg (Int64.not_lt.2 (Int64.le_iff_toInt_le.2 hzero)),
      if_neg (Int64.not_lt.2 (Int64.le_iff_toInt_le.2 (by omega))), if_neg (by simp [hrange])]
    exact ih (by omega) hvalues.2 (by omega)

end

/-! ## The coins of a chain -/

/-- The unspent coins that a chain of `n` blocks over the genesis block can leave. -/
inductive ValidCoins (env : ConnectEnv) : ℕ → (OutPoint → Option Coin) → Prop
  | genesis : ValidCoins env 0 fun _ => none
  | connect {n : ℕ} {m : ChainstateManager} {block : MemBlock env.toBlockEnv} {pindex : Uint256}
      {entry : IndexEntry} {view view' : CoinsView} {undo : Option BlockUndo} :
      ValidCoins env n view.peekCoin → view.Coherent → m.blockIndex pindex = some entry →
      entry.nHeight = n + 1 → connectBlock env m block pindex view false = .ok (view', undo) →
      ValidCoins env (n + 1) view'.peekCoin

/-- **The coins of a chain** are worth no more than its blocks issued. -/
theorem ValidCoins.total_le {env : ConnectEnv} (h : ValidCoins env n coins) :
    InRange coins ∧ totalValue coins ≤ issued env.params.toParams n := by
  induction h with
  | genesis =>
    have hzero : totalValue (fun _ => none) = 0 := Totals.total_const rfl
    refine ⟨fun o coin hcoin => ?_, hzero.le.trans (issued_nonneg _ _)⟩
    cases hcoin
  | @connect n m block pindex entry view view' undo _ hview hentry hheight hok ih =>
    obtain ⟨-, hrange, hle⟩ := (connectBlock_book env m block false hentry hview ih.1).of_eq_ok hok
    refine ⟨hrange, hle.trans ?_⟩
    rw [hheight, issued_succ]
    omega

/-- **The supply and the limit of totals.** The blocks up to height `n` issue at most `MAX_MONEY`
exactly on the regression test network or where `n` is below 420000. Then no inputs and no outputs
that share out different coins have a total out of range. -/
theorem supply_within_maxMoney_iff (chain : ChainType) (n : ℕ) :
    (issued (createChainParams chain).consensus n ≤ maxMoney.toInt ↔
      chain = .regtest ∨ n < 420000) ∧
    (chain = .regtest ∨ n < 420000 → ∀ env : ConnectEnv, env.params = blockParams chain →
      ∀ view : CoinsView, view.Coherent → ValidCoins env n view.peekCoin →
        (∀ tx nSpendHeight, (tx.vin.map TxIn.prevout).Nodup → checkTxInputs tx view nSpendHeight ≠
            .error (.invalid .consensus "bad-txns-inputvalues-outofrange")) ∧
        ∀ os : List OutPoint, os.Nodup → ∀ vout, (∀ txout ∈ vout, 0 ≤ txout.nValue.toInt) →
          valueOut vout ≤ (os.map fun o => coinValue (view.peekCoin o)).sum →
          ∃ total, totalOut 0 vout = .ok total) := by
  refine ⟨issued_le_maxMoney_iff chain n, fun hwhen env henv view hview hvalid => ?_⟩
  obtain ⟨hrange, htotal⟩ := hvalid.total_le
  have hmax : totalValue view.peekCoin ≤ maxMoney.toInt := by
    refine htotal.trans ?_
    rw [henv]
    exact (issued_le_maxMoney_iff chain n).2 hwhen
  have hsum : ∀ os : List OutPoint, os.Nodup →
      (os.map fun o => coinValue (view.peekCoin o)).sum ≤ maxMoney.toInt :=
    fun os hos => (Totals.sum_le_total (coinValue_nonneg hrange) hos).trans hmax
  refine ⟨fun tx nSpendHeight hnodup => ?_, fun os hos vout hvalues hle => ?_⟩
  · refine fun herror => ((checkTxInputs_spec hview.sound).of_eq_error herror hrange).2 ?_ rfl
    have := hsum _ hnodup
    rwa [map_map] at this
  · refine totalOut_of_le (by decide) hvalues ?_
    rw [show (0 : CAmount).toInt = 0 from rfl, zero_add]
    exact hle.trans (hsum os hos)

/-- The first block of a regression test network, with nothing but a coinbase. -/
def firstBlock : MemBlock foldConnectEnv.toBlockEnv :=
  MemBlock.fresh foldEnv (blockOver 7 [spendingCoinbase]) (by decide +kernel)

@[irreducible] def firstHash : Uint256 := foldHash (serBlockHeader firstBlock.header)

def firstEntry : IndexEntry :=
  { header := firstBlock.header, pprev := some 7, nHeight := 1, nChainWork := BaseUint.zero }

def firstIndex : ChainstateManager :=
  { spendingIndex with
    blockIndex := fun hash => if hash = firstHash then some firstEntry else none }

/-- The output of its coinbase. -/
def firstOutPoint : OutPoint := ⟨spendingCoinbase.getHash foldHash, 0⟩

/-- The block connects, and its coinbase is a coin. -/
theorem validCoins_first : ∃ view : CoinsView, view.Coherent ∧
    ValidCoins foldConnectEnv 1 view.peekCoin ∧ (view.peekCoin firstOutPoint).isSome = true := by
  have hbase : (CoinsView.base ∅ 7).Coherent := by
    intro o coin hcoin
    cases hcoin
  obtain ⟨hview, -⟩ := coherent_of_empty hbase find_empty rfl rfl
  have hvalid : ValidCoins foldConnectEnv 0 (cache {} (.base ∅ 7)).peekCoin := by
    exact .genesis
  have hentry : firstIndex.blockIndex firstHash = some firstEntry := by
    simp only [firstIndex, if_true]
  obtain ⟨⟨view, undo⟩, hok, hcoin⟩ := exists_ok
    (P := fun r => (r.1.peekCoin firstOutPoint).isSome = true) (r := connectBlock foldConnectEnv
      firstIndex firstBlock firstHash (cache {} (.base ∅ 7)) false) (by decide +kernel)
  obtain ⟨undo, rfl⟩ := connectBlock_undo hok (by decide +kernel)
  obtain ⟨-, -, _, -, hstands⟩ :=
    connectBlock_applies hentry rfl hview hok (.inl (by decide +kernel))
  exact ⟨view, hstands.coherent, .connect hvalid hview hentry rfl hok, hcoin⟩

/-- A transaction over the coin of the first block, when it can be spent. -/
theorem supply_within_maxMoney_first : ∃ view : CoinsView,
    ValidCoins foldConnectEnv 1 view.peekCoin ∧
      checkTxInputs { spendingTx with vin := [⟨firstOutPoint, [], sequenceFinal, []⟩] } view 101 ≠
        .error (.invalid .consensus "bad-txns-inputvalues-outofrange") := by
  obtain ⟨view, hview, hvalid, -⟩ := validCoins_first
  exact ⟨view, hvalid, ((supply_within_maxMoney_iff .regtest 1).2 (.inl rfl) foldConnectEnv rfl view
    hview hvalid).1 _ 101 (nodup_singleton _)⟩

/-- On the main network the block of height 420000 exceeds the limit. -/
theorem maxMoney_lt_issued_main :
    maxMoney.toInt < issued (createChainParams .main).consensus 420000 := by
  rw [← not_le]
  exact fun hle => absurd ((issued_le_maxMoney_iff .main 420000).1 hle) (by decide)

/-! ## The supply for good -/

section

variable {params : Consensus.Params} {interval : ℕ}
  (hint : params.nSubsidyHalvingInterval = interval) (hpos : 0 < interval)
include hint hpos

theorem getBlockSubsidy_eq (h : ℕ) :
    (getBlockSubsidy h params).toInt = (5000000000 / 2 ^ (h / interval) : ℕ) := by
  have hdiv : (h : ℤ).tdiv interval = (h / interval : ℕ) :=
    Int.tdiv_eq_ediv_of_nonneg (Int.natCast_nonneg h)
  by_cases hmany : 64 ≤ h / interval
  · rw [getBlockSubsidy_of_le hint hpos ((Nat.le_div_iff_mul_le hpos).1 hmany), Nat.div_eq_of_lt]
    · rfl
    · exact lt_of_lt_of_le (by decide) (Nat.pow_le_pow_right (by decide) hmany)
  · have hcount : ∀ k : Fin 64, ((Int64.ofInt k).toBitVec.smod 64).toNat = k := by decide
    simp only [getBlockSubsidy, hint, hdiv]
    rw [if_neg (by omega), toInt_shiftRight_amount, Int.shiftRight_eq_div_pow,
      hcount ⟨h / interval, not_le.1 hmany⟩]
    rfl

/-- **What is issued and what is to come**: two intervals at the present subsidy are more
than all later ones. -/
theorem issued_add_le (n : ℕ) : issued params n +
    (2 * interval - 1 - n % interval : ℕ) * (getBlockSubsidy n params).toInt ≤
      2 * interval * 5000000000 := by
  induction n with
  | zero =>
    rw [issued, Finset.sum_range_one, getBlockSubsidy_of_lt hint hpos, Nat.zero_mod]
    omega
  | succ n ih =>
    refine le_trans ?_ ih
    have hn := Nat.div_add_mod n interval
    have hlt := Nat.mod_lt n hpos
    rw [issued_succ, getBlockSubsidy_eq hint hpos, getBlockSubsidy_eq hint hpos]
    generalize n / interval = q at hn ⊢
    rcases Nat.lt_or_ge (n % interval + 1) interval with hsame | hnext
    -- one block less of the two intervals, at the same subsidy
    · have hq : (n + 1) / interval = q := by
        rw [← hn, add_assoc, Nat.mul_add_div hpos, Nat.div_eq_of_lt hsame, add_zero]
      have hr : (n + 1) % interval = n % interval + 1 := by
        rw [← Nat.mod_add_mod, Nat.mod_eq_of_lt hsame]
      rw [hq, hr, show 2 * interval - 1 - n % interval =
        2 * interval - 1 - (n % interval + 1) + 1 by omega, Nat.cast_succ, Int.add_mul]
      omega
    -- or one interval is left, which pays for two at half of it
    · have hmul : n + 1 = interval * (q + 1) := by rw [mul_add]; omega
      have hhalf : 2 * (5000000000 / 2 ^ (q + 1)) ≤ 5000000000 / 2 ^ q := by
        rw [pow_succ, ← Nat.div_div_eq_div_mul]
        omega
      have hscaled := Nat.mul_le_mul_left interval hhalf
      rw [hmul, Nat.mul_div_cancel_left _ hpos, Nat.mul_mod_right, Nat.sub_zero,
        show 2 * interval - 1 - n % interval = interval by omega, add_assoc]
      refine Int.add_le_add_left ?_ _
      have hall : 5000000000 / 2 ^ (q + 1) + (2 * interval - 1) * (5000000000 / 2 ^ (q + 1)) =
          interval * (2 * (5000000000 / 2 ^ (q + 1))) := by
        rw [add_comm, ← Nat.succ_mul, show (2 * interval - 1).succ = interval * 2 by omega, mul_assoc]
      exact_mod_cast hall.trans_le hscaled

end

/-- **The supply of all time**: the unspent coins are worth no more than two intervals of initial
subsidies, 84 million coins on the main network. -/
theorem supply_bounded (chain : ChainType) (env : ConnectEnv) (henv : env.params = blockParams chain)
    (n : ℕ) (coins : OutPoint → Option Coin) (hvalid : ValidCoins env n coins) :
    totalValue coins ≤ 2 * env.params.nSubsidyHalvingInterval * 5000000000 := by
  obtain ⟨interval, hint, hpos⟩ :
      ∃ k : ℕ, env.params.nSubsidyHalvingInterval = k ∧ 0 < k := by
    rw [henv]
    cases chain with
    | main => exact ⟨840000, rfl, by decide⟩
    | testnet => exact ⟨840000, rfl, by decide⟩
    | regtest => exact ⟨150, rfl, by decide⟩
  have hnonneg := Int.mul_nonneg (Int.natCast_nonneg (2 * interval - 1 - n % interval))
    (getBlockSubsidy_bounds n env.params.toParams).1
  have hall := issued_add_le hint hpos n
  rw [hint]
  exact hvalid.total_le.2.trans (by omega)

/-- The chain of one block. -/
theorem supply_bounded_first : ∃ coins : OutPoint → Option Coin,
    ValidCoins foldConnectEnv 1 coins ∧ (coins firstOutPoint).isSome = true ∧
      totalValue coins ≤ 2 * 150 * 5000000000 := by
  obtain ⟨view, -, hvalid, hcoin⟩ := validCoins_first
  exact ⟨view.peekCoin, hvalid, hcoin, supply_bounded .regtest foldConnectEnv rfl 1 _ hvalid⟩

end Quarlcoin
