import Quarlcoin.Script.Parse
import Quarlcoin.Primitives.Identity
/-!
# Checks of a transaction on its own

`CheckTransaction` of `consensus/tx_check.cpp`, and what `tx_verify.cpp` asks of a
transaction alone. The one kind of rejection is `TX_CONSENSUS`, so a rejection is its
reason.
-/

namespace Quarlcoin

open List

def coin : CAmount := 100000000

def maxMoney : CAmount := 21000000 * coin

def moneyRange (nValue : CAmount) : Bool := decide (0 ≤ nValue) && decide (nValue ≤ maxMoney)

def witnessScaleFactor : ℕ := 1

def maxBlockWeight : ℕ := 32000000

def lockTimeThreshold : ℕ := 500000000

def sequenceFinal : UInt32 := 0xffffffff

/-! ## The model -/

/-- The loop over the outputs: their total, if every partial one is in
range. -/
def totalOut : CAmount → List TxOut → Except String CAmount
  | nValueOut, [] => .ok nValueOut
  | nValueOut, txout :: vout =>
    if txout.nValue < 0 then .error "bad-txns-vout-negative"
    else if txout.nValue > maxMoney then .error "bad-txns-vout-toolarge"
    else if ¬ moneyRange (nValueOut + txout.nValue) then .error "bad-txns-txouttotal-toolarge"
    else totalOut (nValueOut + txout.nValue) vout

/-- The loop over the inputs, with the set of those that were seen. -/
def checkDuplicates : List OutPoint → List TxIn → Except String Unit
  | _, [] => .ok ()
  | vInOutPoints, txin :: vin =>
    if txin.prevout ∈ vInOutPoints then .error "bad-txns-inputs-duplicate"
    else checkDuplicates (txin.prevout :: vInOutPoints) vin

variable (tx : Transaction)

/-- The checks that a coinbase and any other transaction have apart. -/
def checkPrevouts : Except String Unit :=
  if tx.isCoinBase then
    match tx.vin with
    | [] => .ok ()
    | txin :: _ =>
      if txin.scriptSig.length < 2 ∨ txin.scriptSig.length > 100 then .error "bad-cb-length"
      else .ok ()
  else if tx.vin.any fun txin => txin.prevout.isNull then .error "bad-txns-prevout-null"
  else .ok ()

def checkTransaction : Except String Unit := do
  if tx.vin.isEmpty then .error "bad-txns-vin-empty"
  else if tx.vout.isEmpty then .error "bad-txns-vout-empty"
  else if (serializeTransaction false tx).length * witnessScaleFactor > maxBlockWeight then
    .error "bad-txns-oversize"
  else
    let _ ← totalOut 0 tx.vout
    checkDuplicates [] tx.vin
    checkPrevouts tx

def isFinalTx (nBlockHeight : ℕ) (nBlockTime : Int64) : Bool :=
  if tx.nLockTime = 0 then true
  else if (tx.nLockTime.toNat : ℤ) <
      (if tx.nLockTime.toNat < lockTimeThreshold then (nBlockHeight : ℤ) else nBlockTime.toInt) then
    true
  else tx.vin.all fun txin => txin.nSequence == sequenceFinal

/-- `GetLegacySigOpCount`, an `unsigned int`. -/
def getLegacySigOpCount : ℕ :=
  ((tx.vin.map fun txin => Script.getSigOpCount false txin.scriptSig).sum +
    (tx.vout.map fun txout => Script.getSigOpCount false txout.scriptPubKey).sum) % 2 ^ 32

/-! ## What passes -/

theorem toInt_maxMoney : maxMoney.toInt = 2100000000000000 := rfl

theorem moneyRange_iff {v : CAmount} :
    moneyRange v = true ↔ 0 ≤ v.toInt ∧ v.toInt ≤ 2100000000000000 := by
  rw [moneyRange, Bool.and_eq_true, decide_eq_true_iff, decide_eq_true_iff, Int64.le_iff_toInt_le,
    Int64.le_iff_toInt_le]
  rfl

theorem toInt_add_of_moneyRange {a b : CAmount} (ha : moneyRange a = true)
    (hb : moneyRange b = true) : (a + b).toInt = a.toInt + b.toInt := by
  rw [moneyRange_iff] at ha hb
  rw [Int64.toInt_add]
  exact Int.bmod_eq_of_le (by omega) (by omega)

def valueOut (vout : List TxOut) : ℤ := (vout.map fun txout => txout.nValue.toInt).sum

/-- **The loop over the outputs** adds them up exactly, and every value and
every total on the way is in range. -/
theorem totalOut_eq_ok {vout : List TxOut} {start total : CAmount}
    (hstart : moneyRange start = true) (h : totalOut start vout = .ok total) :
    (∀ txout ∈ vout, moneyRange txout.nValue = true) ∧ moneyRange total = true ∧
      total.toInt = start.toInt + valueOut vout := by
  induction vout generalizing start with
  | nil =>
    obtain rfl := Except.ok.inj h
    simp [valueOut, hstart]
  | cons txout vout ih =>
    rw [totalOut] at h
    split at h
    · exact absurd h (by simp)
    rename_i hneg
    split at h
    · exact absurd h (by simp)
    rename_i hlarge
    split at h
    · exact absurd h (by simp)
    rename_i htotal
    have hvalue : moneyRange txout.nValue = true := by
      rw [moneyRange, Bool.and_eq_true, decide_eq_true_iff, decide_eq_true_iff]
      exact ⟨Int64.not_lt.1 hneg, Int64.not_lt.1 hlarge⟩
    obtain ⟨hvalues, hrange, hsum⟩ := ih (not_not.1 htotal) h
    refine ⟨forall_mem_cons.2 ⟨hvalue, hvalues⟩, hrange, ?_⟩
    rw [hsum, toInt_add_of_moneyRange hstart hvalue, valueOut, valueOut, map_cons,
      sum_cons, add_assoc]

/-- **The loop over the inputs** finds a repeated outpoint. -/
theorem checkDuplicates_eq_ok {vin : List TxIn} {seen : List OutPoint} :
    checkDuplicates seen vin = .ok () ↔
      (vin.map TxIn.prevout).Nodup ∧ ∀ txin ∈ vin, txin.prevout ∉ seen := by
  induction vin generalizing seen with
  | nil => simp [checkDuplicates]
  | cons txin vin ih =>
    rw [checkDuplicates]
    split_ifs with hmem
    · simp [hmem]
    rw [ih, map_cons, nodup_cons, forall_mem_cons]
    constructor
    · rintro ⟨hnodup, hseen⟩
      refine ⟨⟨fun hin => ?_, hnodup⟩, hmem, fun txin' h' hin => ?_⟩
      · obtain ⟨txin', h', heq⟩ := mem_map.1 hin
        exact hseen txin' h' (heq ▸ mem_cons_self)
      · exact hseen txin' h' (mem_cons_of_mem _ hin)
    · rintro ⟨⟨hnot, hnodup⟩, -, hseen⟩
      refine ⟨hnodup, fun txin' h' hin => ?_⟩
      rcases mem_cons.1 hin with heq | hin
      · exact hnot (heq ▸ mem_map_of_mem h')
      · exact hseen txin' h' hin

/-- What `CheckTransaction` establishes. -/
structure TxChecked : Prop where
  vin : tx.vin ≠ []
  vout : tx.vout ≠ []
  size : (serializeTransaction false tx).length ≤ maxBlockWeight
  values : ∀ txout ∈ tx.vout, moneyRange txout.nValue = true
  total : valueOut tx.vout ≤ maxMoney.toInt
  nodup : (tx.vin.map TxIn.prevout).Nodup
  prevouts : checkPrevouts tx = .ok ()

theorem checkTransaction_eq_ok {tx : Transaction} (h : checkTransaction tx = .ok ()) :
    TxChecked tx := by
  unfold checkTransaction at h
  split at h
  · exact absurd h (by simp)
  rename_i hvin
  split at h
  · exact absurd h (by simp)
  rename_i hvout
  split at h
  · exact absurd h (by simp)
  rename_i hsize
  cases htotal : totalOut 0 tx.vout with
  | error e =>
    rw [htotal] at h
    exact absurd h (by rintro ⟨⟩)
  | ok total =>
    cases hdup : checkDuplicates [] tx.vin with
    | error e =>
      rw [htotal, hdup] at h
      exact absurd h (by rintro ⟨⟩)
    | ok _ =>
      rw [htotal, hdup] at h
      obtain ⟨hvalues, hrange, hsum⟩ := totalOut_eq_ok (by decide) htotal
      rw [witnessScaleFactor, mul_one, not_lt] at hsize
      refine ⟨by simpa using hvin, by simpa using hvout, hsize, hvalues, ?_,
        (checkDuplicates_eq_ok.1 hdup).1, h⟩
      have hle := (moneyRange_iff.1 hrange).2
      rw [show (0 : CAmount).toInt = 0 from rfl, zero_add] at hsum
      rw [← hsum]
      exact hle

end Quarlcoin
