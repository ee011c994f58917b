import Mathlib.Tactic.MkIffOfInductiveProp
import Quarlcoin.Primitives.Wire
/-!
# What a serialization tells of a transaction

The bytes without witnesses tell everything but the witnesses (`stripped_of_serialize_eq`),
and of two transactions that agree on the rest, the bytes with witnesses tell the witnesses
(`eq_of_serialize_witness_eq`).
-/

namespace Quarlcoin

open Codec Serialize Prod Transaction List

/-- A vector in memory: its size is a `size_t`. -/
@[mk_iff]
structure TxIn.Addressable (txin : TxIn) : Prop where
  scriptSig : txin.scriptSig.length < 2 ^ 64
  stack : txin.scriptWitness.length < 2 ^ 64
  items : ∀ item ∈ txin.scriptWitness, item.length < 2 ^ 64

instance (txin : TxIn) : Decidable txin.Addressable := decidable_of_iff' _ txin.addressable_iff

variable (tx : Transaction)

/-- All vectors of the transaction are in memory. -/
@[mk_iff]
structure Transaction.Addressable : Prop where
  vin : tx.vin.length < 2 ^ 64
  vout : tx.vout.length < 2 ^ 64
  txin : ∀ txin ∈ tx.vin, txin.Addressable
  txout : ∀ txout ∈ tx.vout, txout.scriptPubKey.length < 2 ^ 64

instance (tx : Transaction) : Decidable tx.Addressable := decidable_of_iff' _ tx.addressable_iff

/-! ## Parts -/

theorem separated_serTxIn : Separated serTxIn
    fun txin => txin.scriptSig.length < 2 ^ 64 ∧ txin.scriptWitness = [] := by
  have hparts := (Separated.of_lawful lawful_unserOutPoint).append
    (separated_serBytes.append (Separated.of_lawful lawful_unserUInt32))
  refine hparts.comap (f := fun txin : TxIn => (txin.prevout, txin.scriptSig, txin.nSequence))
    (fun txin h => ⟨trivial, h.1, trivial⟩) fun txin txin' h h' heq => ?_
  obtain ⟨prevout, scriptSig, nSequence, scriptWitness⟩ := txin
  obtain ⟨prevout', scriptSig', nSequence', scriptWitness'⟩ := txin'
  obtain ⟨rfl, hrest⟩ := mk.inj heq
  obtain ⟨rfl, rfl⟩ := mk.inj hrest
  obtain rfl : scriptWitness = scriptWitness' := h.2.trans h'.2.symm
  rfl

theorem separated_serTxOut :
    Separated serTxOut fun txout => txout.scriptPubKey.length < 2 ^ 64 := by
  have hparts := (Separated.of_lawful lawful_unserInt64).append separated_serBytes
  refine hparts.comap (f := fun txout : TxOut => (txout.nValue, txout.scriptPubKey))
    (fun txout h => ⟨trivial, h⟩) fun txout txout' _ _ heq => ?_
  obtain ⟨nValue, scriptPubKey⟩ := txout
  obtain ⟨rfl, rfl⟩ := mk.inj heq
  rfl

/-! ## Without witnesses -/

theorem serializeTransaction_false : serializeTransaction false tx = serUInt32 tx.version ++
      (serVector serTxIn (stripWitness tx.vin) ++
        (serVector serTxOut tx.vout ++ serUInt32 tx.nLockTime)) := by
  simp [serializeTransaction]

/-- The transaction as it is without witnesses. -/
def Transaction.strip : Transaction := { tx with vin := stripWitness tx.vin }

variable {tx tx' : Transaction}

/-- **The bytes without witnesses tell the rest of the transaction.** -/
theorem stripped_of_serialize_eq (h : tx.Addressable)
    (h' : tx'.Addressable) (hser : serializeTransaction false tx = serializeTransaction false tx') :
    tx.strip = tx'.strip := by
  have hvin : ∀ {tx : Transaction}, tx.Addressable → (stripWitness tx.vin).length < 2 ^ 64 ∧
      ∀ txin ∈ stripWitness tx.vin, txin.scriptSig.length < 2 ^ 64 ∧ txin.scriptWitness = [] := by
    intro tx h
    refine ⟨by rw [length_stripWitness]; exact h.vin, fun txin htxin => ?_⟩
    obtain ⟨txin', htxin', rfl⟩ := mem_map.1 htxin
    exact ⟨(h.txin txin' htxin').scriptSig, rfl⟩
  have hparts := (Separated.of_lawful lawful_unserUInt32).append
    ((separated_serVector separated_serTxIn).append
      ((separated_serVector separated_serTxOut).append (Separated.of_lawful lawful_unserUInt32)))
  have heq := hparts.injective
    (a := (tx.version, stripWitness tx.vin, tx.vout, tx.nLockTime))
    (b := (tx'.version, stripWitness tx'.vin, tx'.vout, tx'.nLockTime))
    ⟨trivial, hvin h, ⟨h.vout, h.txout⟩, trivial⟩ ⟨trivial, hvin h', ⟨h'.vout, h'.txout⟩, trivial⟩
    (by simpa only [serializeTransaction_false] using hser)
  obtain ⟨hversion, hrest⟩ := mk.inj heq
  obtain ⟨hstrip, hrest⟩ := mk.inj hrest
  obtain ⟨hvout, hlock⟩ := mk.inj hrest
  rw [strip, strip, hversion, hstrip, hvout, hlock]

theorem serializeTransaction_strip (tx : Transaction) :
    serializeTransaction false tx.strip = serializeTransaction false tx := by
  rw [serializeTransaction_false, serializeTransaction_false, strip, stripWitness_stripWitness]

/-! ## With witnesses -/

theorem serializeTransaction_of_not_hasWitness
    (h : hasWitness tx.vin = false) (allowWitness : Bool) :
    serializeTransaction allowWitness tx = serializeTransaction false tx := by
  simp [serializeTransaction, h]

theorem serializeTransaction_of_hasWitness (h : hasWitness tx.vin = true) :
    serializeTransaction true tx = serUInt32 tx.version ++ (serVector serTxIn [] ++ (serUInt8 1 ++
      (serVector serTxIn tx.vin ++ (serVector serTxOut tx.vout ++
        ((tx.vin.flatMap fun txin => serStack txin.scriptWitness) ++ serUInt32 tx.nLockTime))))) := by
  simp [serializeTransaction, h]

/-- A witness takes bytes, and nothing else does. -/
theorem length_serialize_eq_iff (tx : Transaction) :
    (serializeTransaction true tx).length = (serializeTransaction false tx).length ↔
      hasWitness tx.vin = false := by
  constructor
  · intro hlen
    by_contra hhas
    rw [serializeTransaction_of_hasWitness (Bool.eq_true_of_not_eq_false hhas),
      serializeTransaction_false, serVector_stripWitness] at hlen
    have hflag : (serUInt8 1).length = 1 := rfl
    simp only [length_append] at hlen
    omega
  · intro hhas
    rw [serializeTransaction_of_not_hasWitness hhas]

theorem eq_of_stripWitness_eq {vin vin' : List TxIn} (hstrip : stripWitness vin = stripWitness vin')
    (hstacks : vin.map TxIn.scriptWitness = vin'.map TxIn.scriptWitness) : vin = vin' := by
  induction vin generalizing vin' with
  | nil => exact (stripWitness_eq_nil.1 hstrip.symm).symm
  | cons txin vin ih =>
    cases vin' with
    | nil => exact absurd hstrip (by simp [stripWitness])
    | cons txin' vin' =>
      obtain ⟨hhead, htail⟩ := cons.inj hstrip
      obtain ⟨hstack, hstacks⟩ := cons.inj hstacks
      have heq : txin = txin' := by
        cases txin
        simp_all
      rw [heq, ih htail hstacks]

theorem Transaction.Addressable.stacks (h : tx.Addressable) :
    ∀ stack ∈ tx.vin.map TxIn.scriptWitness,
      stack.length < 2 ^ 64 ∧ ∀ item ∈ stack, item.length < 2 ^ 64 := by
  intro stack hmem
  obtain ⟨txin, htxin, rfl⟩ := mem_map.1 hmem
  exact ⟨(h.txin txin htxin).stack, (h.txin txin htxin).items⟩

/-- **The bytes with witnesses tell the witnesses.** -/
theorem eq_of_serialize_witness_eq (h : tx.Addressable)
    (h' : tx'.Addressable) (hstrip : tx.strip = tx'.strip)
    (hser : serializeTransaction true tx = serializeTransaction true tx') : tx = tx' := by
  have hfalse : serializeTransaction false tx = serializeTransaction false tx' := by
    rw [← serializeTransaction_strip tx, hstrip, serializeTransaction_strip]
  have hhas : hasWitness tx.vin = false ↔ hasWitness tx'.vin = false := by
    rw [← length_serialize_eq_iff, ← length_serialize_eq_iff, hser, hfalse]
  obtain ⟨hvin, hvout, hversion, hlock⟩ := mk.inj hstrip
  have hall : tx.vin = tx'.vin := by
    cases hw : hasWitness tx.vin with
    | false => rw [← stripWitness_eq_self hw, hvin, stripWitness_eq_self (hhas.1 hw)]
    | true =>
      have hw' : hasWitness tx'.vin = true := by
        by_contra hnot
        rw [hhas.2 (Bool.eq_false_of_not_eq_true hnot)] at hw
        exact absurd hw (by simp)
      rw [serializeTransaction_of_hasWitness hw, serializeTransaction_of_hasWitness hw',
        ← serVector_stripWitness tx.vin, hvin, serVector_stripWitness, hvout, hversion] at hser
      simp only [append_cancel_left_eq] at hser
      have hlen : tx.vin.length = tx'.vin.length := by
        rw [← length_stripWitness tx.vin, hvin, length_stripWitness]
      have hstacks := separated_serVector separated_serBytes
      exact eq_of_stripWitness_eq hvin (hstacks.flatMap h.stacks h'.stacks
        (by rw [length_map, length_map, hlen])
        (by simpa only [flatMap_map, serStack] using hser)).1
  cases tx
  simp_all

end Quarlcoin
