import Quarlcoin.Coins.Shadow
import Quarlcoin.Validation.Connect
/-!
# Connecting a block — one transaction

The checks look at the view and change neither the coins it shows nor those it hides
(`Looks`); all inputs are there, and the fee is exact. No sum leaves the range of `int64_t`
if the coins are in `MoneyRange` (`connectChecks_spec`).
-/

namespace Quarlcoin

open Arith Coins CoinsView Option Ensures List

def Looks (v v' : CoinsView) : Prop := Changed v v' v.peekCoin v.shadow

variable (coins : OutPoint → Option Coin)

/-- Every coin of the map has a value in `MoneyRange`. -/
def InRange : Prop :=
  ∀ o coin, coins o = some coin → moneyRange coin.out.nValue = true

def coinValue (found : Option Coin) : ℤ := (found.map fun coin => coin.out.nValue.toInt).getD 0

variable (vin : List TxIn)

def inputValue : ℤ :=
  (vin.map fun txin => coinValue (coins txin.prevout)).sum

def InputsSeen : Prop :=
  ∀ txin ∈ vin, ∃ coin, coins txin.prevout = some coin

/-- What an input spends does not matter to inputs that spend other coins. -/
theorem inputs_update {coins : OutPoint → Option Coin} {o : OutPoint} {vin : List TxIn}
    (hne : o ∉ vin.map TxIn.prevout) (found : Option Coin) :
    (InputsSeen coins vin → InputsSeen (Function.update coins o found) vin) ∧
      inputValue (Function.update coins o found) vin = inputValue coins vin := by
  have hsame : ∀ txin ∈ vin, Function.update coins o found txin.prevout = coins txin.prevout :=
    fun txin hmem => Function.update_of_ne (fun heq : txin.prevout = o =>
      hne (heq ▸ mem_map_of_mem hmem)) ..
  refine ⟨fun hseen txin hmem => by rw [hsame txin hmem]; exact hseen txin hmem, ?_⟩
  rw [inputValue, inputValue, map_congr_left fun txin hmem => by rw [hsame txin hmem]]

variable {v v' v'' : CoinsView}

theorem Looks.refl (h : v.Sound) : Looks v v := Changed.refl h

theorem Looks.trans (h : Looks v v') (h' : Looks v' v'') : Looks v v'' := by
  have hchanged := Changed.trans h h'
  rw [h.peekCoin_eq, h.shadow_eq] at hchanged
  exact hchanged

theorem Looks.peek (h : Looks v v') : v'.peekCoin = v.peekCoin := h.peekCoin_eq

/-! ## Sums -/

variable {α : Type} {a b start : CAmount} {vout : List TxOut} {enforce : Bool} {block : Uint256}
  {flags : ScriptVerifyFlags}

theorem ensures_ofView {r : Except Fault α} {P : α → Prop} {E : TxError → Prop}
    (h : Ensures r (fun _ => True) P) (hE : ∀ fault, E (.view fault)) : Ensures (ofView r) E P := by
  cases r with
  | ok a => exact h
  | error e => exact hE e

theorem ensures_ofTx {r : Except TxError α} {P : α → Prop} {A : Prop}
    (h : Ensures r (fun e => A → e ≠ .overflow) P) :
    Ensures (ofTx r) (fun e => A → e ≠ .overflow) P := by
  refine h.mapError fun e he hA => ?_
  cases e <;> simp_all [TxError.toConnectError]

theorem toInt_add_of_fits (h : fitsAmount (a.toInt + b.toInt) = true) :
    (a + b).toInt = a.toInt + b.toInt := by
  rw [fitsAmount, Bool.and_eq_true, decide_eq_true_iff, decide_eq_true_iff] at h
  rw [Int64.toInt_add]
  exact Int.bmod_eq_of_le (by omega) (by omega)

theorem toInt_sub_of_fits (h : fitsAmount (a.toInt - b.toInt) = true) :
    (a - b).toInt = a.toInt - b.toInt := by
  rw [fitsAmount, Bool.and_eq_true, decide_eq_true_iff, decide_eq_true_iff] at h
  rw [Int64.toInt_sub]
  exact Int.bmod_eq_of_le (by omega) (by omega)

/-- **A sum is exact**, and there is one for amounts in range. -/
theorem addAmount_spec (a b : CAmount) :
    Ensures (addAmount a b) (fun _ => ¬(moneyRange a = true ∧ moneyRange b = true))
      fun sum => sum.toInt = a.toInt + b.toInt := by
  rw [addAmount]
  split_ifs with hfits
  · exact of_ok (toInt_add_of_fits hfits)
  refine of_error fun hrange => hfits ?_
  rw [moneyRange_iff, moneyRange_iff] at hrange
  rw [fitsAmount, Bool.and_eq_true, decide_eq_true_iff, decide_eq_true_iff]
  omega

theorem subAmount_spec (a b : CAmount) :
    Ensures (subAmount a b) (fun _ => ¬(moneyRange a = true ∧ moneyRange b = true))
      fun diff => diff.toInt = a.toInt - b.toInt := by
  rw [subAmount]
  split_ifs with hfits
  · exact of_ok (toInt_sub_of_fits hfits)
  refine of_error fun hrange => hfits ?_
  rw [moneyRange_iff, moneyRange_iff] at hrange
  rw [fitsAmount, Bool.and_eq_true, decide_eq_true_iff, decide_eq_true_iff]
  omega

/-- The reason for which `CheckTxInputs` rejects a total that is out of
range. -/
def outOfRange : TxError := .invalid .consensus "bad-txns-inputvalues-outofrange"

/-- **The total of the outputs** is exact, and never overflows. -/
theorem valueOutLoop_spec (hstart : moneyRange start = true) :
    Ensures (valueOutLoop start vout) (fun e => e ≠ .overflow ∧ e ≠ outOfRange) fun total =>
      moneyRange total = true ∧ total.toInt = start.toInt + valueOut vout := by
  induction vout generalizing start with
  | nil => exact ⟨hstart, by simp [valueOut]⟩
  | cons txout vout ih =>
    rw [valueOutLoop]
    split
    · exact of_error (by simp [outOfRange])
    rename_i hvalue
    refine bind ((addAmount_spec start txout.nValue).mono
      (fun e he => absurd ⟨hstart, not_not.1 hvalue⟩ he) fun _ => id) fun sum hsum => ?_
    split
    · exact of_error (by simp [outOfRange])
    rename_i hrange
    refine (ih (not_not.1 hrange)).imp fun total htotal => ⟨htotal.1, ?_⟩
    rw [htotal.2, hsum, valueOut, valueOut, map_cons, sum_cons, add_assoc]

theorem getValueOut_spec (tx : Transaction) :
    Ensures (getValueOut tx) (fun e => e ≠ .overflow ∧ e ≠ outOfRange) fun total =>
      moneyRange total = true ∧ total.toInt = valueOut tx.vout :=
  (valueOutLoop_spec (by decide)).imp fun _ h => ⟨h.1, by rw [h.2]; exact zero_add _⟩

/-! ## Lookups -/

variable {vin : List TxIn} {tx : Transaction} {m : ChainstateManager} (h : v.Sound)
include h

theorem haveInputsLoop_spec : Ensures (haveInputsLoop vin v) (fun _ => True) fun r =>
      Looks v r.1 ∧ (r.2 = true → InputsSeen v.peekCoin vin) := by
  induction vin generalizing v with
  | nil => exact ⟨Looks.refl h, fun _ _ hmem => absurd hmem not_mem_nil⟩
  | cons txin vin ih =>
    refine bind (of_forall fun r hr => h.haveCoin hr) ?_
    rintro ⟨v₁, found⟩ ⟨hlook, hfound⟩
    replace hlook : Looks v v₁ := hlook
    dsimp only at hfound ⊢
    split_ifs with hyes
    · refine (ih hlook.sound).imp fun r ⟨hlook', hseen⟩ => ⟨hlook.trans hlook', fun hr => ?_⟩
      rw [hlook.peek] at hseen
      refine forall_mem_cons.2 ⟨?_, hseen hr⟩
      rw [hfound] at hyes
      exact isSome_iff_exists.1 hyes
    · exact ⟨hlook, by simp⟩

theorem inputCoin_spec {txin : TxIn} :
    Ensures (inputCoin txin v) (fun e => e ≠ .overflow ∧ e ≠ outOfRange) fun r =>
      Looks v r.1 ∧ v.peekCoin txin.prevout = some r.2 := by
  refine bind (ensures_ofView (of_forall fun r hr => h.accessCoin hr) (by simp [outOfRange])) ?_
  rintro ⟨v₁, coin⟩ ⟨hlook, hcoin⟩
  dsimp only at hlook hcoin ⊢
  split_ifs with hspent
  · exact of_error (by simp [outOfRange])
  refine of_ok ⟨hlook, ?_⟩
  cases hpeek : v.peekCoin txin.prevout with
  | none =>
    rw [hcoin, hpeek] at hspent
    exact absurd Coin.isSpent_default hspent
  | some coin' => rw [hcoin, hpeek, getD_some]

theorem inputCoins_spec : Ensures (inputCoins vin v) (· ≠ .overflow) fun r => Looks v r.1 := by
  induction vin generalizing v with
  | nil => exact Looks.refl h
  | cons txin vin ih =>
    refine bind ((inputCoin_spec h).mono (fun _ => And.left) fun _ => id) ?_
    rintro ⟨v₁, coin⟩ ⟨hlook, -⟩
    refine bind (ih hlook.sound) ?_
    rintro ⟨v₂, coins⟩ hlook'
    exact hlook.trans hlook'

theorem bip30Loop_spec {txid : Uint256} {o : ℕ} :
    Ensures (bip30Loop txid o vout v) (fun _ => True) fun r => Looks v r.1 ∧
      (r.2 = false → ∀ i < vout.length, v.peekCoin ⟨txid, UInt32.ofNat (o + i)⟩ = none) := by
  induction vout generalizing v o with
  | nil => exact ⟨Looks.refl h, fun _ i hi => absurd hi (Nat.not_lt_zero i)⟩
  | cons txout vout ih =>
    refine bind (of_forall fun r hr => h.haveCoin hr) ?_
    rintro ⟨v₁, found⟩ ⟨hlook, hfound⟩
    replace hlook : Looks v v₁ := hlook
    refine bind (ih hlook.sound) ?_
    rintro ⟨v₂, later⟩ ⟨hlook', hlater⟩
    refine of_ok ⟨hlook.trans hlook', fun hnone i hi => ?_⟩
    rw [Bool.or_eq_false_iff] at hnone
    cases i with
    | zero =>
      rw [show found = _ from hfound] at hnone
      simpa using hnone.1
    | succ i =>
      rw [hlook.peek] at hlater
      have := hlater hnone.2 i (by simpa using hi)
      rwa [Nat.add_right_comm] at this

omit h

/-- **The check for overwritten coins**: no output of the block is there. -/
theorem bip30Check_spec (hash : List UInt8 → Uint256) (vtx : List Transaction) (h : v.Sound) :
    Ensures (bip30Check hash vtx v) (fun _ => True) fun r => Looks v r.1 ∧
      (r.2 = false → ∀ tx ∈ vtx, ∀ i < tx.vout.length,
        v.peekCoin ⟨tx.getHash hash, UInt32.ofNat i⟩ = none) := by
  induction vtx generalizing v with
  | nil => exact ⟨Looks.refl h, fun _ tx htx => absurd htx not_mem_nil⟩
  | cons tx vtx ih =>
    refine bind (bip30Loop_spec h) ?_
    rintro ⟨v₁, found⟩ ⟨hlook, hfound⟩
    refine bind (ih hlook.sound) ?_
    rintro ⟨v₂, later⟩ ⟨hlook', hlater⟩
    refine of_ok ⟨Looks.trans hlook hlook', fun hnone => ?_⟩
    rw [Bool.or_eq_false_iff] at hnone
    rw [Looks.peek hlook] at hlater
    refine forall_mem_cons.2 ⟨fun i hi => ?_, hlater hnone.2⟩
    have := hfound hnone.1 i hi
    rwa [Nat.zero_add] at this

theorem checkBIP30_spec {hash : List UInt8 → Uint256} {vtx : List Transaction} (h : v.Sound) :
    Ensures (checkBIP30 hash enforce vtx v) (· ≠ .overflow) fun v' => Looks v v' ∧
      (enforce = true → ∀ tx ∈ vtx, ∀ i < tx.vout.length,
        v.peekCoin ⟨tx.getHash hash, UInt32.ofNat i⟩ = none) := by
  rw [checkBIP30]
  split_ifs with hno
  · have hcheck := ensures_ofTx (A := True) (ensures_ofView (bip30Check_spec hash vtx h) (by simp))
    refine bind (hcheck.mono (fun e he => he trivial) fun _ => id) ?_
    rintro ⟨v₁, overwritten⟩ ⟨hlook, hnone⟩
    dsimp only
    split_ifs with hno
    · exact of_error (by simp)
    · exact of_ok ⟨hlook, fun _ => hnone (by simpa using hno)⟩
  · exact of_ok ⟨Looks.refl h, fun hyes => absurd hyes hno⟩

theorem coinValue_nonneg {coins : OutPoint → Option Coin} (h : InRange coins) (o : OutPoint) :
    0 ≤ coinValue (coins o) := by
  cases hcoin : coins o with
  | none => exact le_rfl
  | some coin => exact (moneyRange_iff.1 (h o coin hcoin)).1

/-- **The total of the inputs.** It is rejected only where it is out of range. -/
theorem valueInLoop_spec (nSpendHeight : ℕ) (vin : List TxIn) (h : v.Sound)
    (hstart : moneyRange start = true) : Ensures (valueInLoop nSpendHeight vin start v)
      (fun e => InRange v.peekCoin → e ≠ .overflow ∧
        (start.toInt + inputValue v.peekCoin vin ≤ maxMoney.toInt → e ≠ outOfRange)) fun r =>
      Looks v r.1 ∧ moneyRange r.2 = true ∧
        r.2.toInt = start.toInt + inputValue v.peekCoin vin := by
  induction vin generalizing v start with
  | nil => exact ⟨Looks.refl h, hstart, by simp [inputValue]⟩
  | cons txin vin ih =>
    refine bind ((inputCoin_spec h).mono (fun e he _ => ⟨he.1, fun _ => he.2⟩) fun _ => id) ?_
    rintro ⟨v₁, coin⟩ ⟨hlook, hcoin⟩
    dsimp only at hlook hcoin ⊢
    split
    · exact of_error (by simp [outOfRange])
    refine bind ((addAmount_spec start coin.out.nValue).mono
      (fun e he hrange => absurd ⟨hstart, hrange _ _ hcoin⟩ he) fun _ => id) fun sum hsum => ?_
    have hcons : start.toInt + inputValue v.peekCoin (txin :: vin) =
        sum.toInt + inputValue v.peekCoin vin := by
      rw [hsum, inputValue, inputValue, map_cons, sum_cons, hcoin, coinValue, map_some, getD_some,
        add_assoc]
    split_ifs with hout
    · refine of_error fun hrange => ⟨by simp, fun hle => absurd hout ?_⟩
      have hvalue := hrange _ _ hcoin
      have hnonneg := (moneyRange_iff.1 hvalue).1
      have hrest : 0 ≤ inputValue v.peekCoin vin :=
        sum_nonneg (forall_mem_map.2 fun txin _ => coinValue_nonneg hrange txin.prevout)
      rw [hcons] at hle
      have hsum' : moneyRange sum = true :=
        moneyRange_iff.2 ⟨by rw [hsum]; exact add_nonneg (moneyRange_iff.1 hstart).1 hnonneg, by
          rw [toInt_maxMoney] at hle; omega⟩
      simp [hvalue, hsum']
    rw [not_or, not_not, not_not] at hout
    have hrest := ih hlook.sound hout.2
    rw [hlook.peek, ← hcons] at hrest
    exact hrest.imp fun r ⟨hlook', htotal, heq⟩ => ⟨hlook.trans hlook', htotal, heq⟩

theorem checkTxInputs_spec {nSpendHeight : ℕ} (h : v.Sound) :
    Ensures (checkTxInputs tx v nSpendHeight) (fun e => InRange v.peekCoin → e ≠ .overflow ∧
        (inputValue v.peekCoin tx.vin ≤ maxMoney.toInt → e ≠ outOfRange))
      fun r => Looks v r.1 ∧ (tx.isCoinBase = false → InputsSeen v.peekCoin tx.vin) ∧
        moneyRange r.2 = true ∧ r.2.toInt = inputValue v.peekCoin tx.vin - valueOut tx.vout := by
  have hfound : Ensures (haveInputs tx v) (fun _ => True) fun r => Looks v r.1 ∧
      (r.2 = true → tx.isCoinBase = false → InputsSeen v.peekCoin tx.vin) := by
    rw [haveInputs]
    split_ifs with hcb
    · exact ⟨Looks.refl h, by simp [hcb]⟩
    · exact (haveInputsLoop_spec h).imp fun r hr => ⟨hr.1, fun hyes _ => hr.2 hyes⟩
  refine bind (ensures_ofView hfound (by simp [outOfRange])) ?_
  rintro ⟨v₁, found⟩ ⟨hlook, hseen⟩
  dsimp only at hlook hseen ⊢
  split
  · exact of_error (by simp [outOfRange])
  rename_i hfound
  have hvalue := valueInLoop_spec nSpendHeight tx.vin hlook.sound
    (show moneyRange 0 = true by decide)
  rw [hlook.peek, show (0 : CAmount).toInt = 0 from rfl, zero_add] at hvalue
  refine bind hvalue ?_
  rintro ⟨v₂, nValueIn⟩ ⟨hlook', hin, hvalueIn⟩
  refine bind ((getValueOut_spec tx).mono (fun e he _ => ⟨he.1, fun _ => he.2⟩) fun _ => id) ?_
  rintro out ⟨hout, hvalueOut⟩
  split
  · exact of_error (by simp [outOfRange])
  refine bind ((subAmount_spec nValueIn out).mono (fun e he _ => absurd ⟨hin, hout⟩ he)
    fun _ => id) fun txfee hfee => ?_
  split
  · exact of_error (by simp [outOfRange])
  rename_i hrange
  refine of_ok ⟨hlook.trans hlook', hseen (not_not.1 hfound), not_not.1 hrange, ?_⟩
  rw [hfee, hvalueIn, hvalueOut]

/-! ## A round of the loop -/

theorem sequenceLocksLoop_spec {inputs : List (TxIn × ℕ)} {locks : ℤ × ℤ} :
    Ensures (sequenceLocksLoop m block inputs locks) (· ≠ .overflow) fun _ => True := by
  induction inputs generalizing locks with
  | nil => exact trivial
  | cons input rest ih =>
    rw [sequenceLocksLoop]
    split
    · exact ih
    split
    · split
      · exact of_error (by simp)
      · exact ih
    · exact ih

theorem calculateSequenceLocks_spec {prevHeights : List ℕ} :
    Ensures (calculateSequenceLocks m tx enforce prevHeights block) (· ≠ .overflow)
      fun _ => True := by
  rw [calculateSequenceLocks]
  split
  · exact of_error (by simp)
  split
  · exact sequenceLocksLoop_spec
  · exact trivial

theorem evaluateSequenceLocks_spec {entry : IndexEntry} {lockPair : ℤ × ℤ} :
    Ensures (evaluateSequenceLocks m entry lockPair) (· ≠ .overflow) fun _ => True := by
  rw [evaluateSequenceLocks]
  split
  · exact of_error (by simp)
  · exact trivial

theorem witnessSigOpLoop_spec {nSigOps : ℕ} (h : v.Sound) :
    Ensures (witnessSigOpLoop flags vin nSigOps v) (· ≠ .overflow) fun r => Looks v r.1 := by
  induction vin generalizing v nSigOps with
  | nil => exact Looks.refl h
  | cons txin vin ih =>
    refine bind ((inputCoin_spec h).mono (fun _ => And.left) fun _ => id) ?_
    rintro ⟨v₁, coin⟩ ⟨hlook, -⟩
    dsimp only
    split
    · exact of_error (by simp)
    · exact (ih hlook.sound).imp fun r hlook' => hlook.trans hlook'

theorem getP2SHSigOpCount_spec (h : v.Sound) :
    Ensures (getP2SHSigOpCount tx v) (· ≠ .overflow) fun r => Looks v r.1 := by
  rw [getP2SHSigOpCount]
  split
  · exact Looks.refl h
  · refine bind (inputCoins_spec h) ?_
    rintro ⟨v₁, coins⟩ hlook
    exact hlook

theorem getTransactionSigOpCost_spec (h : v.Sound) :
    Ensures (getTransactionSigOpCost tx v flags) (· ≠ .overflow) fun r => Looks v r.1 := by
  rw [getTransactionSigOpCost]
  split
  · exact Looks.refl h
  split
  · refine bind (getP2SHSigOpCount_spec h) ?_
    rintro ⟨v₁, count⟩ hlook
    exact (witnessSigOpLoop_spec hlook.sound).imp fun r hlook' => Looks.trans hlook hlook'
  · exact witnessSigOpLoop_spec h

section

variable {env : ConnectEnv} {m : ChainstateManager} {ctx : ConnectContext} {tx : Transaction}
  {s : ConnectState}

/-- What the checks of a transaction establish. -/
structure Paid (tx : Transaction) (s s' : ConnectState) : Prop where
  seen : InputsSeen s.view.peekCoin tx.vin
  range : moneyRange s'.nFees = true
  fees : s'.nFees.toInt = s.nFees.toInt + (inputValue s.view.peekCoin tx.vin - valueOut tx.vout)

theorem connectInputs_spec (h : s.view.Sound) (hcb : tx.isCoinBase = false) :
    Ensures (connectInputs env m ctx tx s)
      (fun e => InRange s.view.peekCoin ∧ moneyRange s.nFees = true → e ≠ .overflow) fun s' =>
      Looks s.view s'.view ∧ s'.vtxundo = s.vtxundo ∧ Paid tx s s' := by
  refine bind (ensures_ofTx ((checkTxInputs_spec h).mono
    (fun e he hrange => (he hrange.1).1) fun _ => id)) ?_
  rintro ⟨v₁, txfee⟩ ⟨hlook, hseen, hfee, hvalue⟩
  refine bind (ensures_ofTx ((addAmount_spec s.nFees txfee).mono
    (fun e he hrange => absurd ⟨hrange.2, hfee⟩ he) fun _ => id)) fun nFees hfees => ?_
  split
  · exact of_error (by simp)
  rename_i hrange
  refine bind (ensures_ofTx ((inputCoins_spec hlook.sound).mono (fun e he _ => he) fun _ => id)) ?_
  rintro ⟨v₂, coins⟩ hlook'
  refine bind (ensures_ofTx (calculateSequenceLocks_spec.mono (fun e he _ => he)
    fun _ => id)) fun locks _ => ?_
  refine bind (ensures_ofTx (evaluateSequenceLocks_spec.mono (fun e he _ => he)
    fun _ => id)) fun final _ => ?_
  split
  · exact of_error (by simp)
  exact of_ok ⟨Looks.trans hlook hlook', rfl, hseen hcb, not_not.1 hrange,
    by rw [← hvalue]; exact hfees⟩

theorem connectScripts_spec (h : s.view.Sound) :
    Ensures (connectScripts env ctx tx s) (· ≠ .overflow) fun s' =>
      Looks s.view s'.view ∧ s'.vtxundo = s.vtxundo ∧ s'.nFees = s.nFees := by
  have hcoins : Ensures (ofTx (inputCoins tx.vin s.view)) (fun e => True → e ≠ .overflow)
      fun r => Looks s.view r.1 :=
    ensures_ofTx ((inputCoins_spec h).mono (fun e he _ => he) fun _ => id)
  refine bind (hcoins.mono (fun e he => he trivial) fun _ => id) ?_
  rintro ⟨v₁, coins⟩ hlook
  dsimp only
  split
  · exact of_ok ⟨hlook, rfl, rfl⟩
  split
  · exact of_error (by simp [scriptFailure])
  · exact of_ok ⟨hlook, rfl, rfl⟩

theorem connectSigOps_spec (h : s.view.Sound) :
    Ensures (connectSigOps ctx tx s) (· ≠ .overflow) fun s' =>
      Looks s.view s'.view ∧ s'.vtxundo = s.vtxundo ∧ s'.nFees = s.nFees := by
  have hcost : Ensures (ofTx (getTransactionSigOpCost tx s.view ctx.flags))
      (fun e => True → e ≠ .overflow) fun r => Looks s.view r.1 :=
    ensures_ofTx ((getTransactionSigOpCost_spec h).mono (fun e he _ => he) fun _ => id)
  refine bind (hcost.mono (fun e he => he trivial) fun _ => id) ?_
  rintro ⟨v₁, cost⟩ hlook
  dsimp only
  split
  · exact of_error (by simp)
  · exact of_ok ⟨hlook, rfl, rfl⟩

/-- **The checks of a transaction** only look, and make it pay. -/
theorem connectChecks_spec (h : s.view.Sound) : Ensures (connectChecks env m ctx tx s)
      (fun e => InRange s.view.peekCoin ∧ moneyRange s.nFees = true → e ≠ .overflow) fun s' =>
      Looks s.view s'.view ∧ s'.vtxundo = s.vtxundo ∧ (tx.isCoinBase = true → s'.nFees = s.nFees) ∧
        (tx.isCoinBase = false → Paid tx s s') := by
  rw [connectChecks]
  split
  · rename_i hcb
    refine (connectSigOps_spec h).mono (fun e he _ => he) fun s' ⟨hlook, hundo, hfees⟩ => ?_
    exact ⟨hlook, hundo, fun _ => hfees, fun hno => by rw [hcb] at hno; cases hno⟩
  rename_i hcb
  have hcb' : tx.isCoinBase = false := by simpa using hcb
  refine bind (connectInputs_spec h hcb') fun s₁ ⟨hlook₁, hundo₁, hpaid⟩ => ?_
  refine bind ((connectSigOps_spec hlook₁.sound).mono (fun e he _ => he) fun _ => id)
    fun s₂ ⟨hlook₂, hundo₂, hfees₂⟩ => ?_
  have hlook := hlook₁.trans hlook₂
  split
  · refine (connectScripts_spec hlook.sound).mono (fun e he _ => he)
      fun s₃ ⟨hlook₃, hundo₃, hfees₃⟩ => ?_
    have hfees : s₃.nFees = s₁.nFees := hfees₃.trans hfees₂
    exact ⟨hlook.trans hlook₃, hundo₃.trans (hundo₂.trans hundo₁), fun hyes => absurd hyes hcb,
      fun _ => ⟨hpaid.seen, by rw [hfees]; exact hpaid.range, by rw [hfees]; exact hpaid.fees⟩⟩
  · exact of_ok ⟨hlook, hundo₂.trans hundo₁, fun hyes => absurd hyes hcb,
      fun _ => ⟨hpaid.seen, by rw [hfees₂]; exact hpaid.range, by rw [hfees₂]; exact hpaid.fees⟩⟩

end

end Quarlcoin
