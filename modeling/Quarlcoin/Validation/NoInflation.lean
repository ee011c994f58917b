import Quarlcoin.Common.Totals
import Quarlcoin.Consensus.Mutation
import Quarlcoin.Validation.Inputs
import Quarlcoin.Validation.Subsidy
/-!
# Connecting a block — no inflation

The total value of the unspent coins grows by no more than the subsidy. The account kept is
that of a view and an amount which its coins do not exceed (`Book`). A coin that is hidden
counts too, since it may be seen again.
-/

namespace Quarlcoin

open Arith Coins CoinsView Function Ensures BaseUint BlockHeader List Finmap

instance : Finite OutPoint :=
  Finite.of_injective (fun o => (o.hash.toFin, o.n.toFin)) fun a b h => by
    obtain ⟨hhash, hn⟩ := Prod.mk.inj h
    cases a
    cases b
    rw [BitVec.toFin_inj] at hhash
    rw [OutPoint.mk.injEq]
    exact ⟨hhash, UInt32.toFin_inj.1 hn⟩

noncomputable instance : Fintype OutPoint := Fintype.ofFinite OutPoint

noncomputable def totalValue (coins : OutPoint → Option Coin) : ℤ := Totals.total coinValue coins

variable {coins : OutPoint → Option Coin}

theorem totalValue_nonneg (h : InRange coins) :
    0 ≤ totalValue coins := Totals.total_nonneg (coinValue_nonneg h)

theorem InRange.update (h : InRange coins) {o : OutPoint} {x : Option Coin}
    (hx : ∀ coin, x = some coin → moneyRange coin.out.nValue = true) : InRange (update coins o x) :=
  FiniteMap.forall_update rfl h hx

/-- A view whose coins are in range and worth at most `held`. -/
structure Book (v : CoinsView) (held : ℤ) : Prop where
  sound : v.Sound
  seen : InRange v.peekCoin
  hidden : InRange v.shadow
  le_held : totalValue v.peekCoin + totalValue v.shadow ≤ held

variable {v v' view : CoinsView} {held : ℤ} {o : OutPoint} {coin : Coin} {env : ConnectEnv}
  {m : ChainstateManager} {tx : Transaction}

namespace Book

theorem mono (h : Book v held) {held' : ℤ} (hle : held ≤ held') : Book v held' :=
  ⟨h.sound, h.seen, h.hidden, h.le_held.trans hle⟩

theorem of_changed {seen hidden : OutPoint → Option Coin} (hchanged : Changed v v' seen hidden)
    (hseen : InRange seen) (hhidden : InRange hidden)
    (hle : totalValue seen + totalValue hidden ≤ held) : Book v' held := by
  obtain rfl := hchanged.peekCoin_eq
  obtain rfl := hchanged.shadow_eq
  exact ⟨hchanged.sound, hseen, hhidden, hle⟩

variable (h : Book v held)
include h

theorem look (hlook : Looks v v') : Book v' held :=
  .of_changed hlook h.seen h.hidden h.le_held

/-- **Spending** a coin takes its value off. -/
theorem spend (hchanged : Changed v v' (update v.peekCoin o (v.shadow o))
      (update v.shadow o none)) : Book v' (held - coinValue (v.peekCoin o)) := by
  refine .of_changed hchanged (h.seen.update fun coin hcoin => h.hidden o coin hcoin)
    (h.hidden.update (by simp)) ?_
  have hle := h.le_held
  rw [totalValue, totalValue] at hle ⊢
  rw [Totals.total_update, Totals.total_update, show coinValue none = 0 from rfl]
  omega

/-- **Adding** a coin puts its value on, or less where it replaces another. -/
theorem addCoin {possibleOverwrite : Bool} (hok : v.addCoin o coin possibleOverwrite = .ok v')
    (hrange : moneyRange coin.out.nValue = true) : Book v' (held + coin.out.nValue.toInt) := by
  have hvalue := (moneyRange_iff.1 hrange).1
  obtain ⟨-, ⟨-, rfl⟩ | ⟨-, ⟨hidden, hcases, hchanged⟩, -⟩⟩ := h.sound.addCoin hok
  · exact h.mono (by omega)
  have hseen := coinValue_nonneg h.seen o
  have hle := h.le_held
  have hnew : InRange (update v.peekCoin o (some coin)) :=
    h.seen.update (by rintro _ ⟨rfl⟩; exact hrange)
  have htotal : totalValue (update v.peekCoin o (some coin)) =
      totalValue v.peekCoin - coinValue (v.peekCoin o) + coin.out.nValue.toInt :=
    Totals.total_update ..
  rcases hcases with rfl | ⟨-, hnone, rfl⟩
  · exact .of_changed hchanged hnew h.hidden (by omega)
  refine .of_changed hchanged hnew (h.hidden.update fun coin' => h.seen o coin') ?_
  rw [htotal, totalValue, totalValue, Totals.total_update, hnone, show coinValue none = 0 from rfl]
  rw [totalValue, totalValue] at hle
  omega

end Book

/-! ## A transaction -/

variable {vout : List TxOut} {block : Block} {pindex : Uint256} {entry : IndexEntry}

/-- **The inputs** are spent once each. -/
theorem spendInputs_book {vin : List TxIn} (h : Book v held)
    (hnodup : (vin.map TxIn.prevout).Nodup) (hseen : InputsSeen v.peekCoin vin) :
    Ensures (spendInputs vin v) (· ≠ .overflow) fun r =>
      Book r.1 (held - inputValue v.peekCoin vin) := by
  induction vin generalizing v held with
  | nil => exact h.mono (by simp [inputValue])
  | cons txin vin ih =>
    rw [map_cons, nodup_cons] at hnodup
    refine bind (ensures_ofView (of_forall fun r hr => h.sound.spendCoin hr) (by simp)) ?_
    rintro ⟨v₁, moved⟩ ⟨hchanged, -⟩
    cases moved with
    | none => exact of_error (by simp)
    | some coin =>
      obtain ⟨hseen', hvalue⟩ := @inputs_update v.peekCoin _ _ hnodup.1
        (v.shadow txin.prevout)
      rw [← hchanged.peekCoin_eq] at hseen' hvalue
      refine bind (ih (h.spend hchanged) hnodup.2 (hseen' (forall_mem_cons.1 hseen).2)) ?_
      rintro ⟨v₂, vprevout⟩ hbook
      refine Book.mono hbook ?_
      rw [hvalue, inputValue, inputValue, map_cons, sum_cons]
      omega

/-- **The outputs** are worth what they say. -/
theorem addCoinsLoop_book {txid : Uint256} {fCoinbase : Bool} {nHeight i : ℕ}
    (h : Book v held) (hrange : ∀ txout ∈ vout, moneyRange txout.nValue = true) :
    Ensures (addCoinsLoop txid fCoinbase nHeight i vout v) (fun _ => True) fun v' =>
      Book v' (held + valueOut vout) := by
  induction vout generalizing v held i with
  | nil => exact h.mono (by simp [valueOut])
  | cons txout vout ih =>
    rw [forall_mem_cons] at hrange
    refine Ensures.bind (Ensures.of_forall fun v₁ hadd => h.addCoin hadd hrange.1)
      fun v₁ hbook => ?_
    refine (ih hbook hrange.2).imp fun v' hbook' => hbook'.mono ?_
    exact (add_assoc _ _ _).le

theorem updateCoins_book (hash : List UInt8 → Uint256) (nHeight : ℕ)
    (h : Book v held) (htx : TxChecked tx)
    (hseen : tx.isCoinBase = false → InputsSeen v.peekCoin tx.vin) :
    Ensures (updateCoins hash tx v nHeight) (· ≠ .overflow) fun r =>
      Book r.1 (held + valueOut tx.vout -
        if tx.isCoinBase then 0 else inputValue v.peekCoin tx.vin) := by
  rw [updateCoins]
  split_ifs with hcb
  · refine bind (of_ok rfl) ?_
    rintro _ rfl
    exact bind (ensures_ofView (addCoinsLoop_book h htx.values) (by simp))
      fun v₂ hbook => hbook.mono (by omega)
  refine bind (spendInputs_book h htx.nodup (hseen (by simpa using hcb))) ?_
  rintro ⟨v₁, txundo⟩ hbook
  refine bind (ensures_ofView (addCoinsLoop_book hbook htx.values) (by simp))
    fun v₂ hbook' => hbook'.mono (by omega)

/-! ## The block -/

section

variable {ctx : ConnectContext} {s : ConnectState} (h : Book s.view (held - s.nFees.toInt))
include h

/-- **A round of the loop**, in which the account minus the fees so far grows
by the outputs of a coinbase and not at all otherwise. -/
theorem connectTx_book {first : Bool} (hfees : moneyRange s.nFees = true) (htx : TxChecked tx) :
    Ensures (connectTx env m ctx first tx s) (· ≠ .overflow) fun s' => moneyRange s'.nFees = true ∧
        Book s'.view (held + (if tx.isCoinBase then valueOut tx.vout else 0) - s'.nFees.toInt) := by
  refine bind ((connectChecks_spec h.sound).mono (fun e he => he ⟨h.seen, hfees⟩)
    fun _ => id) fun s₁ ⟨hlook, _, hcoinbase, hpaid⟩ => ?_
  have hseen : tx.isCoinBase = false → InputsSeen s₁.view.peekCoin tx.vin := by
    intro hcb
    rw [hlook.peek]
    exact (hpaid hcb).seen
  have hupdate := ensures_ofTx (A := True) ((updateCoins_book env.hash ctx.entry.nHeight
    (h.look hlook) htx hseen).mono (fun e he _ => he) fun _ => id)
  refine bind (hupdate.mono (fun e he => he trivial) fun _ => id) ?_
  rintro ⟨v₂, txundo⟩ hbook
  cases hcb : tx.isCoinBase with
  | true =>
    refine of_ok ⟨?_, Book.mono hbook ?_⟩
    · rw [hcoinbase hcb]
      exact hfees
    · rw [if_pos hcb, if_pos rfl, hcoinbase hcb]
      omega
  | false =>
    refine of_ok ⟨(hpaid hcb).range, Book.mono hbook ?_⟩
    have hnFees := (hpaid hcb).fees
    rw [if_neg (by simp [hcb]), if_neg (by simp), hlook.peek]
    dsimp only
    omega

/-- **The loop over the transactions** behind the coinbase. -/
theorem connectLoop_book {vtx : List Transaction}
    (hfees : moneyRange s.nFees = true) (htxs : ∀ tx ∈ vtx, TxChecked tx)
    (hcb : ∀ tx ∈ vtx, tx.isCoinBase = false) :
    Ensures (connectLoop env m ctx false vtx s) (· ≠ .overflow) fun s' =>
      moneyRange s'.nFees = true ∧ Book s'.view (held - s'.nFees.toInt) := by
  induction vtx generalizing s with
  | nil => exact ⟨hfees, h⟩
  | cons tx vtx ih =>
    rw [forall_mem_cons] at htxs hcb
    refine bind (connectTx_book h hfees htxs.1) fun s₁ ⟨hfees₁, hbook⟩ => ?_
    rw [hcb.1, if_neg (by simp), add_zero] at hbook
    exact ih hbook hfees₁ htxs.2 hcb.2

omit h

/-- **The reward** is all that the block creates. -/
theorem connectFinish_spec {coinbase : Transaction} (hfees : moneyRange s.nFees = true) :
    Ensures (connectFinish env ctx coinbase s) (· ≠ .overflow) fun _ =>
      valueOut coinbase.vout ≤ s.nFees.toInt +
        (getBlockSubsidy ctx.entry.nHeight env.params.toParams).toInt := by
  have hreward := ensures_ofTx (A := True) ((addAmount_spec s.nFees
    (getBlockSubsidy ctx.entry.nHeight env.params.toParams)).mono
    (fun e he => absurd ⟨hfees, moneyRange_getBlockSubsidy _ _⟩ he) fun _ => id)
  refine bind (hreward.mono (fun e he => he trivial) fun _ => id) fun blockReward hsum => ?_
  have hout := ensures_ofTx (A := True) ((getValueOut_spec coinbase).mono (fun e he _ => he.1)
    fun _ => id)
  refine bind (hout.mono (fun e he => he trivial) fun _ => id) fun out ⟨_, hvalue⟩ => ?_
  split_ifs with hle
  · exact of_error (by simp)
  split
  · exact of_error (by simp [scriptFailure])
  · have hle' := Int64.le_iff_toInt_le.1 (Int64.not_lt.1 hle)
    exact of_ok (by rw [← hvalue, ← hsum]; exact hle')

theorem coinbaseCheck_eq_ok (h : coinbaseCheck block = .ok ()) :
    ∃ coinbase vtx, block.vtx = coinbase :: vtx ∧ coinbase.isCoinBase = true ∧
      ∀ tx ∈ vtx, tx.isCoinBase = false := by
  unfold coinbaseCheck at h
  split at h
  · cases h
  rename_i coinbase vtx hvtx
  split at h
  · cases h
  rename_i hcb
  split at h
  · cases h
  rename_i hany
  refine ⟨coinbase, vtx, hvtx, by simpa using hcb, fun tx htx => ?_⟩
  exact Bool.eq_false_of_not_eq_true fun hyes => hany (List.any_eq_true.2 ⟨tx, htx, hyes⟩)

end

/-- **The transactions of a block** create no more than the subsidy. -/
theorem connectTransactions_book (h : Book view held) (hbody : BodyChecked block) :
    Ensures (connectTransactions env m block pindex entry view) (· ≠ .overflow) fun r =>
      Book r.1 (held + (getBlockSubsidy entry.nHeight env.params.toParams).toInt) := by
  obtain ⟨coinbase, vtx, hvtx, hcb, hrest⟩ := coinbaseCheck_eq_ok hbody.coinbase
  have htxs : ∀ tx ∈ coinbase :: vtx, TxChecked tx := fun tx htx =>
    checkTransaction_eq_ok (hbody.transactions tx (hvtx ▸ htx))
  rw [List.forall_mem_cons] at htxs
  rw [connectTransactions]
  split
  · rename_i fScriptChecks pprev coinbase' vtx' _ _ hvtx'
    rw [hvtx] at hvtx'
    obtain ⟨rfl, rfl⟩ := hvtx'
    refine Ensures.bind ((checkBIP30_spec h.sound).imp fun v₁ hlook => h.look hlook.1)
      fun v₁ hbook => ?_
    rw [hvtx]
    have hstart : Book v₁ (held - (0 : CAmount).toInt) := hbook.mono (by simp)
    refine Ensures.bind (Ensures.bind (connectTx_book hstart
      (show moneyRange 0 = true by decide) htxs.1) fun s₁ ⟨hfees₁, hbook₁⟩ =>
        connectLoop_book hbook₁ hfees₁ htxs.2 hrest) fun s₂ ⟨hfees₂, hbook₂⟩ => ?_
    refine Ensures.bind (connectFinish_spec hfees₂) fun _ hreward => ?_
    rw [if_pos hcb] at hbook₂
    exact Ensures.of_ok (Book.mono hbook₂ (by dsimp only at hreward ⊢; omega))
  · exact Ensures.of_error (by simp)

theorem Book.of_coherent (h : view.Coherent) (hrange : InRange view.peekCoin) :
    Book view (totalValue view.peekCoin) where
  sound := h.sound
  seen := hrange
  hidden := by
    rw [h.shadow_eq]
    intro o coin hcoin
    cases hcoin
  le_held := by
    have hzero : totalValue view.shadow = 0 := by
      rw [h.shadow_eq]
      exact Totals.total_const rfl
    omega

theorem Book.total_le (h : Book view held) : totalValue view.peekCoin ≤ held := by
  have hle := h.le_held
  have hnonneg := totalValue_nonneg h.hidden
  omega

theorem peekCoin_setBestBlock (view : CoinsView) (hash : Uint256) :
    (view.setBestBlock hash).peekCoin = view.peekCoin := by
  cases view <;> rfl

/-- **`ConnectBlock`** on coins in range: no sum overflows, and the coins afterwards are in range
and worth at most the subsidy more. -/
theorem connectBlock_book (env : ConnectEnv) (m : ChainstateManager)
    (block : MemBlock env.toBlockEnv) (fJustCheck : Bool)
    (hentry : m.blockIndex pindex = some entry) (hview : view.Coherent)
    (hrange : InRange view.peekCoin) :
    Ensures (connectBlock env m block pindex view fJustCheck) (· ≠ .overflow) fun r =>
      BodyChecked block.toBlock ∧ InRange r.1.peekCoin ∧
        totalValue r.1.peekCoin ≤ totalValue view.peekCoin +
          (getBlockSubsidy entry.nHeight env.params.toParams).toInt := by
  have hsubsidy := (getBlockSubsidy_bounds entry.nHeight env.params.toParams).1
  obtain ⟨hlook, -, -⟩ := hview.getBestBlock
  have hbook := (Book.of_coherent hview hrange).look hlook
  rw [connectBlock]
  simp only [hentry]
  split
  · exact Ensures.of_error (by simp)
  split
  · split <;> exact Ensures.of_error (by simp)
  rename_i hcheck
  have hbody := bodyCheck_eq_ok.1 (blockCheck_eq_ok.1 (checkBlock_eq_ok hcheck).1).2.2
  split
  · exact Ensures.of_error (by simp)
  split
  · refine Ensures.of_ok ⟨hbody, ?_⟩
    have hsame : (if fJustCheck then view.getBestBlock.1
        else view.getBestBlock.1.setBestBlock pindex).peekCoin = view.peekCoin := by
      split
      · exact hlook.peekCoin_eq
      · rw [peekCoin_setBestBlock, hlook.peekCoin_eq]
    rw [hsame]
    exact ⟨hrange, by omega⟩
  refine Ensures.bind (connectTransactions_book hbook hbody) ?_
  rintro ⟨v₁, undo⟩ hbook'
  split
  · exact Ensures.of_ok ⟨hbody, hbook'.seen, hbook'.total_le⟩
  split
  · exact Ensures.of_error (by simp)
  · refine Ensures.of_ok ⟨hbody, ?_⟩
    rw [peekCoin_setBestBlock]
    exact ⟨hbook'.seen, hbook'.total_le⟩

theorem totalOut_append {a b : List TxOut} {start total : CAmount}
    (h : totalOut start (a ++ b) = .ok total) : ∃ total', totalOut start a = .ok total' := by
  induction a generalizing start with
  | nil => exact ⟨start, rfl⟩
  | cons txout a ih =>
    rw [cons_append, totalOut] at h
    rw [totalOut]
    split at h
    · cases h
    rename_i hneg
    split at h
    · cases h
    rename_i hlarge
    split at h
    · cases h
    rename_i htotal
    rw [if_neg hneg, if_neg hlarge, if_neg htotal]
    exact ih h

theorem totalOut_exact (h : checkTransaction tx = .ok ()) (hvout : vout <+: tx.vout) :
    ∃ total, totalOut 0 vout = .ok total ∧ total.toInt = valueOut vout := by
  obtain ⟨rest, hrest⟩ := hvout
  have hall : ∃ total, totalOut 0 tx.vout = .ok total := by
    unfold checkTransaction at h
    split at h
    · cases h
    split at h
    · cases h
    split at h
    · cases h
    obtain ⟨total, htotal, -⟩ := bind_eq_ok_iff.1 h
    exact ⟨total, htotal⟩
  obtain ⟨total, htotal⟩ := hall
  rw [← hrest] at htotal
  obtain ⟨total', htotal'⟩ := totalOut_append htotal
  have hsum := (totalOut_eq_ok (by decide) htotal').2.2
  exact ⟨total', htotal', by rw [hsum]; exact zero_add _⟩

/-- **No inflation.** On coins in `MoneyRange` no sum of `ConnectBlock` overflows; and if it
succeeds, all unspent coins together are worth at most the subsidy more, every coin is again in
`MoneyRange`, and the totals of `CheckTransaction` are exact. -/
theorem connectBlock_no_inflation (env : ConnectEnv) (m : ChainstateManager)
    (block : MemBlock env.toBlockEnv) (pindex : Uint256) (entry : IndexEntry) (view : CoinsView)
    (fJustCheck : Bool) (hentry : m.blockIndex pindex = some entry) (hview : view.Coherent)
    (hrange : InRange view.peekCoin) :
    connectBlock env m block pindex view fJustCheck ≠ .error .overflow ∧
    ∀ view' undo, connectBlock env m block pindex view fJustCheck = .ok (view', undo) →
      totalValue view'.peekCoin ≤ totalValue view.peekCoin +
          (getBlockSubsidy entry.nHeight env.params.toParams).toInt ∧ InRange view'.peekCoin ∧
        ∀ tx ∈ block.vtx, ∀ vout, vout <+: tx.vout →
          ∃ total, totalOut 0 vout = .ok total ∧ total.toInt = valueOut vout := by
  have hspec := connectBlock_book env m block fJustCheck hentry hview hrange
  refine ⟨fun herror => hspec.of_eq_error herror rfl, fun view' undo hok => ?_⟩
  obtain ⟨hbody, hrange', hle⟩ := hspec.of_eq_ok hok
  exact ⟨hle, hrange', fun tx htx vout hvout => totalOut_exact (hbody.transactions tx htx) hvout⟩

/-! ## A block that spends a coin -/

/-- A node that finds nothing wrong with any script. -/
def lengthConnectEnv : ConnectEnv where
  toBlockEnv := lengthEnv
  assumedValidBlock := 0
  minimumChainWork := zero
  hasThreads := false
  scriptError _ _ _ := none
  writeBlockUndo _ := true

def spendingHeader : BlockHeader :=
  { null with hashPrevBlock := 7, hashMerkleRoot := 64, nBits := 0x207fffff }

/-- The entry of the block, whose hash is its length, and the one before. -/
def spendingIndex : ChainstateManager where
  blockIndex hash :=
    if hash = 80 then
      some { header := spendingHeader, pprev := some 7, nHeight := 6, nChainWork := zero }
    else if hash = 7 then
      some { header := null, pprev := none, nHeight := 5, nChainWork := zero }
    else none
  failedValid _ := false
  bestHeader := some 80
  vChain := []

def spendingCoinbase : Transaction where
  vin := [⟨⟨0, OutPoint.nullIndex⟩, [0x51, 0], sequenceFinal, []⟩]
  vout := [⟨5000000000, [0x51]⟩]
  version := 1
  nLockTime := 0

/-- A transaction that spends a coin, with an output that cannot be spent. -/
def spendingTx : Transaction where
  vin := [⟨⟨5, 0⟩, [], sequenceFinal, []⟩]
  vout := [⟨100000000, [0x51]⟩, ⟨0, [opReturn]⟩]
  version := 1
  nLockTime := 0

theorem spendingVtx_addressable : ∀ tx ∈ [spendingCoinbase, spendingTx], tx.Addressable := by
  decide +kernel

def spendingBlock : MemBlock lengthConnectEnv.toBlockEnv :=
  MemBlock.fresh lengthEnv ⟨spendingHeader, [spendingCoinbase, spendingTx]⟩ spendingVtx_addressable

variable (nHeight : BitVec 31)

/-- A cache over a map with the coin that the block spends. -/
def spendingView : CoinsView :=
  .cache {} (.base (singleton ⟨5, 0⟩ { out := ⟨100000000, [0x51]⟩, nHeight }) 7)

theorem find_empty (o : OutPoint) : ({} : CoinsViewCache).find o = none := lookup_empty o

theorem spendingView_peekCoin (o : OutPoint) : (spendingView nHeight).peekCoin o =
      if o = ⟨5, 0⟩ then some { out := ⟨100000000, [0x51]⟩, nHeight } else none := by
  rw [spendingView, peekCoin_cache, find_empty, valueOver, peekCoin]
  split
  · rename_i heq
    rw [heq, lookup_singleton_eq]
  · rename_i hne
    exact lookup_eq_none.2 (by simpa using hne)

theorem spendingView_coherent : (spendingView nHeight).Coherent := by
  refine (coherent_of_empty ?_ find_empty rfl rfl).1
  intro o coin hcoin
  have hpeek : (spendingView nHeight).peekCoin o = some coin := by exact hcoin
  rw [spendingView_peekCoin] at hpeek
  split at hpeek
  · rw [← Option.some.inj hpeek]
    rfl
  · cases hpeek

theorem spendingView_inRange : InRange (spendingView nHeight).peekCoin := by
  intro o coin hcoin
  rw [spendingView_peekCoin] at hcoin
  split at hcoin
  · rw [← Option.some.inj hcoin]
    exact show moneyRange 100000000 = true by decide
  · cases hcoin

theorem spendingBlock_connects :
    ∃ r, connectBlock lengthConnectEnv spendingIndex spendingBlock 80 (spendingView 5) false =
      .ok r :=
  (exists_ok (P := fun _ => True) (by decide +kernel)).imp fun _ h => h.1

/-- The block of this section connects, and creates no more than a subsidy. -/
theorem spendingBlock_no_inflation :
    ∃ view' undo, connectBlock lengthConnectEnv spendingIndex spendingBlock 80 (spendingView 5)
        false = .ok (view', undo) ∧
      totalValue view'.peekCoin ≤ totalValue (spendingView 5).peekCoin + 5000000000 := by
  obtain ⟨⟨view', undo⟩, hok⟩ := spendingBlock_connects
  have hbound := ((connectBlock_no_inflation lengthConnectEnv spendingIndex spendingBlock 80 _
    (spendingView 5) false rfl (spendingView_coherent 5) (spendingView_inRange 5)).2 view' undo
      hok).1
  exact ⟨view', undo, hok, hbound⟩

end Quarlcoin
