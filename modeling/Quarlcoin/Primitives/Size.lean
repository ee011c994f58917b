import Mathlib.Algebra.Order.BigOperators.Group.List
import Quarlcoin.Primitives.Block
/-!
# Sizes

What a serialization takes at least. A transaction whose bytes are no more than `MAX_SIZE`
can be read back (`Transaction.sized_of_length`).
-/

namespace Quarlcoin

open Codec Serialize List

/-! ## Vectors -/

theorem length_writeCompactSize_pos (n : ℕ) : 0 < (writeCompactSize n).length := by
  rw [writeCompactSize_eq, length_append, length_leBytes]
  omega

section

variable {α : Type} (ser : α → List UInt8) {v : List α}

theorem length_serVector : (serVector ser v).length =
    (writeCompactSize v.length).length + (v.map fun a => (ser a).length).sum := by
  rw [serVector, length_append, length_flatMap]

theorem length_item_le {a : α} (h : a ∈ v) : (ser a).length ≤ (serVector ser v).length := by
  rw [length_serVector]
  have hle : (ser a).length ≤ (v.map fun a => (ser a).length).sum :=
    single_le_sum (by simp) _ (mem_map_of_mem h)
  omega

theorem length_le_serVector (h : ∀ a ∈ v, 0 < (ser a).length) :
    v.length ≤ (serVector ser v).length := by
  rw [length_serVector]
  have hle : v.length ≤ (v.map fun a => (ser a).length).sum := by
    have := card_nsmul_le_sum (v.map fun a => (ser a).length) 1 fun n hn => by
      obtain ⟨a, ha, rfl⟩ := mem_map.1 hn
      exact h a ha
    simpa using this
  omega

end

variable (v : List UInt8)

theorem length_le_serBytes : v.length ≤ (serBytes v).length := by
  rw [serBytes, length_append]
  omega

theorem length_serBytes_pos : 0 < (serBytes v).length := by
  have := length_writeCompactSize_pos v.length
  rw [serBytes, length_append]
  omega

/-! ## Transactions -/

theorem length_serTxIn (txin : TxIn) :
    (serTxIn txin).length = 40 + (serBytes txin.scriptSig).length := by
  simp only [serTxIn, serOutPoint, serUint256, serUInt32, length_append, length_leBytes]
  omega

theorem length_serTxOut (txout : TxOut) :
    (serTxOut txout).length = 8 + (serBytes txout.scriptPubKey).length := by
  simp [serTxOut, serInt64]

theorem length_serialize_false (tx : Transaction) : (serializeTransaction false tx).length =
      8 + (serVector serTxIn tx.vin).length + (serVector serTxOut tx.vout).length := by
  rw [serializeTransaction_false, serVector_stripWitness]
  simp only [serUInt32, length_append, length_leBytes]
  omega

variable {tx : Transaction}

theorem length_serialize_of_hasWitness (h : hasWitness tx.vin = true) :
    (serializeTransaction true tx).length = (serializeTransaction false tx).length + 2 +
      (tx.vin.flatMap fun txin => serStack txin.scriptWitness).length := by
  have hnil : (serVector serTxIn []).length = 1 := rfl
  have hflag : (serUInt8 1).length = 1 := rfl
  rw [serializeTransaction_of_hasWitness h, length_serialize_false]
  simp only [serUInt32, length_append, length_leBytes]
  omega

theorem length_serialize_false_le (tx : Transaction) :
    (serializeTransaction false tx).length ≤ (serializeTransaction true tx).length := by
  cases h : hasWitness tx.vin with
  | false => rw [serializeTransaction_of_not_hasWitness h true]
  | true =>
    rw [length_serialize_of_hasWitness h]
    omega

theorem length_serStack_le (h : hasWitness tx.vin = true) {txin : TxIn} (htxin : txin ∈ tx.vin) :
    (serStack txin.scriptWitness).length ≤ (serializeTransaction true tx).length := by
  rw [length_serialize_of_hasWitness h, length_flatMap]
  have hle : (serStack txin.scriptWitness).length ≤
      (tx.vin.map fun txin => (serStack txin.scriptWitness).length).sum :=
    single_le_sum (by simp) _ (mem_map_of_mem htxin)
  omega

/-- **A transaction that is small enough can be read.** -/
theorem Transaction.sized_of_length (h : (serializeTransaction true tx).length ≤ maxSize) :
    tx.Sized := by
  have hfalse := length_serialize_false_le tx
  rw [length_serialize_false] at hfalse
  refine ⟨?_, ?_, fun txin htxin => ⟨?_, ?_, fun item hitem => ?_⟩, fun txout htxout => ?_⟩
  · have := length_le_serVector serTxIn (v := tx.vin) fun txin _ => by
      rw [length_serTxIn]
      omega
    omega
  · have := length_le_serVector serTxOut (v := tx.vout) fun txout _ => by
      rw [length_serTxOut]
      omega
    omega
  · have hitem := length_item_le serTxIn htxin
    have hscript := length_le_serBytes txin.scriptSig
    rw [length_serTxIn] at hitem
    omega
  · cases hw : hasWitness tx.vin with
    | false =>
      have hempty : txin.scriptWitness = [] := by simpa using any_eq_false.1 hw txin htxin
      simp [hempty]
    | true =>
      have hstack := length_serStack_le hw htxin
      have hcount := length_le_serVector serBytes (v := txin.scriptWitness)
        fun item _ => length_serBytes_pos item
      rw [serStack] at hstack
      omega
  · have hw : hasWitness tx.vin = true :=
      any_eq_true.2 ⟨txin, htxin, by simpa using ne_nil_of_mem hitem⟩
    have hstack := length_serStack_le hw htxin
    have hbytes := length_item_le serBytes hitem
    have hlen := length_le_serBytes item
    rw [serStack] at hstack
    omega
  · have hitem := length_item_le serTxOut htxout
    have hscript := length_le_serBytes txout.scriptPubKey
    rw [length_serTxOut] at hitem
    omega

/-! ## Blocks -/

theorem length_serBlockHeader (header : BlockHeader) : (serBlockHeader header).length = 80 := by
  simp only [serBlockHeader, serInt32, serUint256, serUInt32, length_append, length_leBytes]

theorem length_serialize_le_block (allowWitness : Bool) {block : Block} (h : tx ∈ block.vtx) :
    (serializeTransaction allowWitness tx).length ≤ (serBlock allowWitness block).length := by
  have := length_item_le (serializeTransaction allowWitness) h
  rw [serBlock, length_append]
  omega

end Quarlcoin
