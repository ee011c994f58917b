import Quarlcoin.Primitives.Serialize
import Quarlcoin.Primitives.Transaction
/-!
# The wire format of transactions

With witnesses allowed, an empty input vector announces the extended format: a byte of flags
follows, and the witnesses stand behind the outputs. The format is lawful
(`lawful_unserializeTransaction`), so that no transaction has two encodings.
-/

namespace Quarlcoin

open Codec Serialize List Prod Transaction Except

/-! ## The model -/

def serOutPoint (o : OutPoint) : List UInt8 := serUint256 o.hash ++ serUInt32 o.n

def unserOutPoint : Stream OutPoint := do
  let hash ← unserUint256
  let n ← unserUInt32
  pure { hash, n }

/-- `SERIALIZE_METHODS(CTxIn)`, which leaves the witness out. -/
def serTxIn (txin : TxIn) : List UInt8 :=
  serOutPoint txin.prevout ++ (serBytes txin.scriptSig ++ serUInt32 txin.nSequence)

def unserTxIn : Stream TxIn := do
  let prevout ← unserOutPoint
  let scriptSig ← unserBytes
  let nSequence ← unserUInt32
  pure { prevout, scriptSig, nSequence, scriptWitness := [] }

def serTxOut (txout : TxOut) : List UInt8 := serInt64 txout.nValue ++ serBytes txout.scriptPubKey

def unserTxOut : Stream TxOut := do
  let nValue ← unserInt64
  let scriptPubKey ← unserBytes
  pure { nValue, scriptPubKey }

def serStack (stack : List (List UInt8)) : List UInt8 := serVector serBytes stack

def unserStack : Stream (List (List UInt8)) := unserVector unserBytes

variable (vin : List TxIn)

def hasWitness : Bool := vin.any fun txin => !txin.scriptWitness.isEmpty

variable (allowWitness : Bool) (tx : Transaction)

def serializeTransaction : List UInt8 :=
  let flags : UInt8 := if allowWitness && hasWitness tx.vin then 1 else 0
  serUInt32 tx.version ++
    ((if flags ≠ 0 then serVector serTxIn [] ++ serUInt8 flags else []) ++
      (serVector serTxIn tx.vin ++ (serVector serTxOut tx.vout ++
        ((if flags &&& 1 ≠ 0 then tx.vin.flatMap fun txin => serStack txin.scriptWitness else []) ++
          serUInt32 tx.nLockTime))))

/-- The loop that reads the witness of every input. -/
def unserWitnesses : List TxIn → Stream (List TxIn)
  | [] => pure []
  | txin :: vin => do
    let stack ← unserStack
    let vin ← unserWitnesses vin
    pure ({ txin with scriptWitness := stack } :: vin)

/-- The inputs and outputs, and the flags in front of them. -/
def unserBody : Stream (UInt8 × List TxIn × List TxOut) := do
  let vin ← unserVector unserTxIn
  if vin.isEmpty ∧ allowWitness then
    -- a dummy or an empty vin
    let flags ← unserUInt8
    if flags ≠ 0 then
      let vin ← unserVector unserTxIn
      let vout ← unserVector unserTxOut
      pure (flags, vin, vout)
    else pure (flags, [], [])
  else
    let vout ← unserVector unserTxOut
    pure (0, vin, vout)

/-- The witnesses, if the flag says so, and the flags that are left. -/
def unserFlagged (flags : UInt8) (vin : List TxIn) : Stream (UInt8 × List TxIn) :=
  if flags &&& 1 ≠ 0 ∧ allowWitness then do
    let vin ← unserWitnesses vin
    if ¬ hasWitness vin then throw .superfluousWitness else pure (flags ^^^ 1, vin)
  else pure (flags, vin)

def unserializeTransaction : Stream Transaction := do
  let version ← unserUInt32
  let (flags, vin, vout) ← unserBody allowWitness
  let (flags, vin) ← unserFlagged allowWitness flags vin
  if flags ≠ 0 then throw .unknownOptionalData
  else
    let nLockTime ← unserUInt32
    pure { vin, vout, version, nLockTime }

/-! ## Sizes

A vector that is longer than `MAX_SIZE` is written and not read back. -/

/-- No vector of the input is too long. -/
structure TxIn.Sized (txin : TxIn) : Prop where
  scriptSig : txin.scriptSig.length ≤ maxSize
  stack : txin.scriptWitness.length ≤ maxSize
  items : ∀ item ∈ txin.scriptWitness, item.length ≤ maxSize

/-- No vector of the transaction is too long. -/
structure Transaction.Sized : Prop where
  vin : tx.vin.length ≤ maxSize
  vout : tx.vout.length ≤ maxSize
  txin : ∀ txin ∈ tx.vin, txin.Sized
  txout : ∀ txout ∈ tx.vout, txout.scriptPubKey.length ≤ maxSize

/-! ## The parts -/

theorem lawful_unserOutPoint : Lawful serOutPoint unserOutPoint fun _ => True := by
  refine lawful_unserUint256.total OutPoint.hash fun _ => ?_
  refine lawful_unserUInt32.last OutPoint.n ?_ fun _ _ => by simp
  rintro _ ⟨-, rfl⟩
  exact ⟨trivial, rfl⟩

theorem lawful_unserTxIn : Lawful serTxIn unserTxIn
    fun txin => txin.scriptSig.length ≤ maxSize ∧ txin.scriptWitness = [] := by
  refine lawful_unserOutPoint.total TxIn.prevout fun _ => ?_
  refine lawful_unserBytes.next TxIn.scriptSig (fun _ h => h.1.1) fun _ h => ?_
  refine lawful_unserUInt32.last TxIn.nSequence ?_ fun _ _ => by simpa using h
  rintro ⟨_, _, _, _⟩ ⟨⟨⟨-, rfl⟩, rfl⟩, rfl⟩
  exact ⟨trivial, rfl⟩

theorem lawful_unserTxOut :
    Lawful serTxOut unserTxOut fun txout => txout.scriptPubKey.length ≤ maxSize := by
  refine lawful_unserInt64.total TxOut.nValue fun _ => ?_
  refine lawful_unserBytes.last TxOut.scriptPubKey ?_ fun _ h => by simpa using h
  rintro _ ⟨h, rfl⟩
  exact ⟨h, rfl⟩

theorem lawful_unserStack : Lawful serStack unserStack
    fun stack => stack.length ≤ maxSize ∧ ∀ item ∈ stack, item.length ≤ maxSize :=
  lawful_unserVector lawful_unserBytes

/-! ## Inputs without their witnesses -/

/-- The inputs as the vector of inputs shows them. -/
def stripWitness : List TxIn := vin.map fun txin =>
    { txin with scriptWitness := [] }

@[simp] theorem serVector_stripWitness :
    serVector serTxIn (stripWitness vin) = serVector serTxIn vin := by
  rw [serVector, stripWitness, length_map, flatMap_map]
  rfl

@[simp] theorem length_stripWitness : (stripWitness vin).length = vin.length :=
  length_map ..

variable {vin : List TxIn} {tx : Transaction} {allowWitness : Bool}

@[simp] theorem stripWitness_eq_nil : stripWitness vin = [] ↔ vin = [] := map_eq_nil_iff

theorem stripWitness_eq_self (h : hasWitness vin = false) : stripWitness vin = vin := by
  refine (map_congr_left fun txin htxin => ?_).trans (map_id vin)
  have hempty : txin.scriptWitness = [] := by simpa using any_eq_false.1 h txin htxin
  rw [← hempty]
  rfl

theorem lawful_unserWitnesses (base : List TxIn) :
    Lawful (fun vin : List TxIn => vin.flatMap fun txin => serStack txin.scriptWitness)
      (unserWitnesses base) fun vin => (∀ txin ∈ vin, txin.scriptWitness.length ≤ maxSize ∧
        ∀ item ∈ txin.scriptWitness, item.length ≤ maxSize) ∧
          stripWitness vin = stripWitness base := by
  induction base with
  | nil =>
    refine (Lawful.pure []).congr (fun vin => ⟨fun h => ?_, ?_⟩) ?_
    · exact stripWitness_eq_nil.1 h.2
    · rintro rfl
      simp
    · rintro _ rfl
      rfl
  | cons txin₀ base ih =>
    refine ⟨fun vin hvin rest => ?_, fun bs vin rest hp => ?_⟩
    · obtain ⟨hsized, hstrip⟩ := hvin
      obtain ⟨txin, vin, rfl⟩ : ∃ txin vin', vin = txin :: vin' := by
        cases vin with
        | nil => exact absurd hstrip (by simp [stripWitness])
        | cons txin vin => exact ⟨txin, vin, rfl⟩
      obtain ⟨htxin, hvin⟩ := forall_mem_cons.1 hsized
      obtain ⟨hhead, htail⟩ := cons.inj hstrip
      rw [flatMap_cons, append_assoc, unserWitnesses,
        bind_of_ok (lawful_unserStack.decode _ htxin _), bind_of_ok (ih.decode vin ⟨hvin, htail⟩ rest)]
      have hput : { txin₀ with scriptWitness := txin.scriptWitness } = txin := by
        obtain ⟨h₁, h₂, h₃, -⟩ := TxIn.mk.inj hhead
        rw [← h₁, ← h₂, ← h₃]
      rw [hput]
      rfl
    · obtain ⟨stack, mid, hstack, hrest⟩ := bind_eq_ok.1 hp
      obtain ⟨vin', mid', hvin', hpure⟩ := bind_eq_ok.1 hrest
      obtain ⟨rfl, rfl⟩ := mk.inj (ok.inj hpure)
      obtain ⟨hsized, rfl⟩ := lawful_unserStack.canonical _ _ _ hstack
      obtain ⟨⟨hvin, hstrip⟩, rfl⟩ := ih.canonical _ _ _ hvin'
      refine ⟨⟨forall_mem_cons.2 ⟨hsized, hvin⟩, ?_⟩, ?_⟩
      · rw [stripWitness, map_cons]
        exact congrArg _ hstrip
      · rw [flatMap_cons, append_assoc]

/-! ## The transaction -/

/-- The bytes that `unserBody` reads. -/
def serBody (body : UInt8 × List TxIn × List TxOut) : List UInt8 :=
  (if body.1 ≠ 0 then serVector serTxIn [] ++ serUInt8 body.1 else []) ++
    (serVector serTxIn body.2.1 ++ serVector serTxOut body.2.2)

def VinOk (vin : List TxIn) : Prop :=
  vin.length ≤ maxSize ∧ ∀ txin ∈ vin, txin.scriptSig.length ≤ maxSize ∧ txin.scriptWitness = []

def VoutOk (vout : List TxOut) : Prop :=
  vout.length ≤ maxSize ∧ ∀ txout ∈ vout, txout.scriptPubKey.length ≤ maxSize

/-- What `unserBody` can return: an empty vin without flags is a transaction without outputs. -/
structure BodyOk (allowWitness : Bool) (body : UInt8 × List TxIn × List TxOut) : Prop where
  vin : VinOk body.2.1
  vout : VoutOk body.2.2
  flags : if allowWitness then body.1 = 0 → body.2.1 = [] → body.2.2 = [] else body.1 = 0

theorem lawful_unserVin : Lawful (serVector serTxIn) (unserVector unserTxIn) VinOk :=
  lawful_unserVector lawful_unserTxIn

theorem lawful_unserVout : Lawful (serVector serTxOut) (unserVector unserTxOut) VoutOk :=
  lawful_unserVector lawful_unserTxOut

theorem lawful_unserBody (allowWitness : Bool) :
    Lawful serBody (unserBody allowWitness) (BodyOk allowWitness) := by
  refine ⟨?_, ?_⟩
  · rintro ⟨flags, vin, vout⟩ ⟨hvin, hvout, hflags⟩ rest
    by_cases hzero : flags = 0
    · subst hzero
      rw [serBody, if_neg (by simp), nil_append, append_assoc, unserBody,
        bind_of_ok (lawful_unserVin.decode vin hvin _)]
      by_cases hempty : vin.isEmpty ∧ allowWitness
      · -- no inputs: the byte of an empty vout is read as flags
        have hnil := isEmpty_iff.1 hempty.1
        rw [if_pos hempty.2] at hflags
        obtain rfl := hflags rfl hnil
        rw [if_pos hempty, hnil]
        rfl
      · rw [if_neg hempty, bind_of_ok (lawful_unserVout.decode vout hvout rest)]
        rfl
    · have hallow : allowWitness = true := by
        by_contra hnot
        rw [if_neg hnot] at hflags
        exact hzero hflags
      rw [serBody, if_pos hzero, append_assoc, append_assoc, unserBody,
        bind_of_ok (lawful_unserVin.decode [] (by simp [VinOk]) _), if_pos ⟨rfl, hallow⟩,
        bind_of_ok (lawful_unserUInt8.decode flags trivial _), if_pos hzero, append_assoc,
        bind_of_ok (lawful_unserVin.decode vin hvin _),
        bind_of_ok (lawful_unserVout.decode vout hvout rest)]
      rfl
  · rintro bs ⟨flags, vin, vout⟩ rest hp
    obtain ⟨vin₀, mid, hvin₀, hrest⟩ := bind_eq_ok.1 hp
    obtain ⟨hok₀, rfl⟩ := lawful_unserVin.canonical _ _ _ hvin₀
    split at hrest
    · rename_i hempty
      obtain rfl := isEmpty_iff.1 hempty.1
      obtain ⟨f, mid', hf, hflagged⟩ := bind_eq_ok.1 hrest
      obtain ⟨-, rfl⟩ := lawful_unserUInt8.canonical _ _ _ hf
      split at hflagged
      · rename_i hne
        obtain ⟨vin', mid', hvin', hout⟩ := bind_eq_ok.1 hflagged
        obtain ⟨vout', mid'', hvout', hpure⟩ := bind_eq_ok.1 hout
        obtain ⟨hbody, rfl⟩ := mk.inj (ok.inj hpure)
        obtain ⟨rfl, rfl, rfl⟩ : f = flags ∧ vin' = vin ∧ vout' = vout := by simpa using hbody
        obtain ⟨hvinOk, rfl⟩ := lawful_unserVin.canonical _ _ _ hvin'
        obtain ⟨hvoutOk, rfl⟩ := lawful_unserVout.canonical _ _ _ hvout'
        refine ⟨⟨hvinOk, hvoutOk, ?_⟩, ?_⟩
        · rw [if_pos hempty.2]
          exact fun h => absurd h hne
        · rw [serBody, if_pos hne]
          simp
      · rename_i hzero
        obtain ⟨hbody, rfl⟩ := mk.inj (ok.inj hflagged)
        obtain ⟨rfl, rfl, rfl⟩ : f = flags ∧ [] = vin ∧ [] = vout := by simpa using hbody
        rw [not_not] at hzero
        subst hzero
        exact ⟨⟨by simp [VinOk], by simp [VoutOk], by simp⟩, rfl⟩
    · rename_i hnot
      obtain ⟨vout', mid', hvout', hpure⟩ := bind_eq_ok.1 hrest
      obtain ⟨hbody, rfl⟩ := mk.inj (ok.inj hpure)
      obtain ⟨rfl, rfl, rfl⟩ : 0 = flags ∧ vin₀ = vin ∧ vout' = vout := by simpa using hbody
      obtain ⟨hvoutOk, rfl⟩ := lawful_unserVout.canonical _ _ _ hvout'
      refine ⟨⟨hok₀, hvoutOk, ?_⟩, ?_⟩
      · split
        · rename_i hallow
          exact fun _ hnil => absurd ⟨isEmpty_iff.2 hnil, hallow⟩ hnot
        · rfl
      · rw [serBody, if_neg (by simp), nil_append, append_assoc]

@[simp] theorem stripWitness_stripWitness (vin : List TxIn) :
    stripWitness (stripWitness vin) = stripWitness vin :=
  stripWitness_eq_self (by simp [hasWitness, stripWitness])

/-- What can be read back: no vector is too long, and a transaction without inputs has no outputs.
-/
def Transaction.Readable (allowWitness : Bool) (tx : Transaction) : Prop :=
  tx.Sized ∧ if allowWitness then tx.vin = [] → tx.vout = [] else hasWitness tx.vin = false

theorem Transaction.Sized.vinOk (h : tx.Sized) : VinOk (stripWitness tx.vin) := by
  refine ⟨by rw [length_stripWitness]; exact h.vin, fun txin htxin => ?_⟩
  obtain ⟨txin', htxin', rfl⟩ := mem_map.1 htxin
  exact ⟨(h.txin txin' htxin').scriptSig, rfl⟩

variable {vin₀ : List TxIn} {bs rest : List UInt8}

/-- The vectors of a transaction, from those of its body and its witnesses. -/
theorem Transaction.sized_of (hvin : VinOk vin₀) (hvout : VoutOk tx.vout)
    (hstrip : stripWitness tx.vin = stripWitness vin₀)
    (hstack : ∀ txin ∈ tx.vin, txin.scriptWitness.length ≤ maxSize ∧
      ∀ item ∈ txin.scriptWitness, item.length ≤ maxSize) : tx.Sized := by
  have hlen := congrArg length hstrip
  rw [length_stripWitness, length_stripWitness] at hlen
  refine ⟨hlen ▸ hvin.1, hvout.1, fun txin htxin => ⟨?_, (hstack txin htxin).1, (hstack txin htxin).2⟩,
    hvout.2⟩
  have hmem : { txin with scriptWitness := [] } ∈ stripWitness vin₀ :=
    hstrip ▸ mem_map.2 ⟨txin, htxin, rfl⟩
  obtain ⟨txin', htxin', heq⟩ := mem_map.1 hmem
  rw [← (TxIn.mk.inj heq).2.1]
  exact (hvin.2 txin' htxin').1

theorem VinOk.hasWitness_eq_false (h : VinOk vin) : hasWitness vin = false :=
  any_eq_false.2 fun txin htxin => by simp [(h.2 txin htxin).2]

theorem unserializeTransaction_append (h : tx.Readable allowWitness) (rest : List UInt8) :
    unserializeTransaction allowWitness (serializeTransaction allowWitness tx ++ rest) =
      .ok (tx, rest) := by
  obtain ⟨hsized, hshape⟩ := h
  by_cases hwitness : (allowWitness && hasWitness tx.vin) = true
  · -- the extended format
    obtain ⟨hallow, hhas⟩ := Bool.and_eq_true_iff.1 hwitness
    subst hallow
    have hbody : BodyOk true (1, stripWitness tx.vin, tx.vout) :=
      ⟨hsized.vinOk, ⟨hsized.vout, hsized.txout⟩, by simp⟩
    have hserial : serializeTransaction true tx = serUInt32 tx.version ++
        (serBody (1, stripWitness tx.vin, tx.vout) ++
          ((tx.vin.flatMap fun txin => serStack txin.scriptWitness) ++ serUInt32 tx.nLockTime)) := by
      simp [serializeTransaction, hwitness, serBody]
    rw [hserial, append_assoc, unserializeTransaction,
      bind_of_ok (lawful_unserUInt32.decode _ trivial _), append_assoc,
      bind_of_ok ((lawful_unserBody true).decode _ hbody _)]
    dsimp only
    have hflagged : unserFlagged true 1 (stripWitness tx.vin)
        (((tx.vin.flatMap fun txin => serStack txin.scriptWitness) ++ serUInt32 tx.nLockTime) ++
          rest) = .ok ((0, tx.vin), serUInt32 tx.nLockTime ++ rest) := by
      rw [unserFlagged, if_pos ⟨by decide, rfl⟩, append_assoc,
        bind_of_ok ((lawful_unserWitnesses _).decode tx.vin
          ⟨fun txin h => ⟨(hsized.txin txin h).stack, (hsized.txin txin h).items⟩, by simp⟩ _),
        if_neg (by simp [hhas])]
      rfl
    rw [bind_of_ok hflagged]
    rw [if_neg (by simp), bind_of_ok (lawful_unserUInt32.decode _ trivial rest)]
    rfl
  · -- the basic format
    have hhas : hasWitness tx.vin = false := by
      cases allowWitness with
      | true => simpa using hwitness
      | false => exact hshape
    have hbody : BodyOk allowWitness (0, tx.vin, tx.vout) := by
      refine ⟨stripWitness_eq_self hhas ▸ hsized.vinOk, ⟨hsized.vout, hsized.txout⟩, ?_⟩
      split_ifs with hallow
      · subst hallow
        exact fun _ => hshape
      · rfl
    have hserial : serializeTransaction allowWitness tx = serUInt32 tx.version ++
        (serBody (0, tx.vin, tx.vout) ++ serUInt32 tx.nLockTime) := by
      simp [serializeTransaction, hwitness, serBody]
    rw [hserial, append_assoc, unserializeTransaction,
      bind_of_ok (lawful_unserUInt32.decode _ trivial _), append_assoc,
      bind_of_ok ((lawful_unserBody allowWitness).decode _ hbody _)]
    dsimp only
    have hflagged : unserFlagged allowWitness 0 tx.vin (serUInt32 tx.nLockTime ++ rest) =
        .ok ((0, tx.vin), serUInt32 tx.nLockTime ++ rest) := by
      rfl
    rw [bind_of_ok hflagged]
    rw [if_neg (by simp), bind_of_ok (lawful_unserUInt32.decode _ trivial rest)]
    rfl

theorem unserFlagged_eq_ok {flags : UInt8}
    (h : unserFlagged allowWitness flags vin₀ bs = .ok ((0, vin), rest)) :
    (allowWitness = true ∧ flags = 1 ∧ hasWitness vin = true ∧
        unserWitnesses vin₀ bs = .ok (vin, rest)) ∨ (flags = 0 ∧ vin = vin₀ ∧ bs = rest) := by
  unfold unserFlagged at h
  split_ifs at h with hflag
  · obtain ⟨vin', mid, hread, hcheck⟩ := bind_eq_ok.1 h
    split at hcheck
    · exact absurd hcheck (by rintro ⟨⟩)
    rename_i hhas
    obtain ⟨hpair, rfl⟩ := mk.inj (ok.inj hcheck)
    obtain ⟨hxor, rfl⟩ := mk.inj hpair
    have hone : flags = 1 := by
      have := congrArg (· ^^^ (1 : UInt8)) hxor
      simpa [UInt8.xor_assoc] using this
    exact .inl ⟨hflag.2, hone, not_not.1 hhas, hread⟩
  · obtain ⟨hpair, rfl⟩ := mk.inj (ok.inj h)
    obtain ⟨rfl, rfl⟩ := mk.inj hpair
    exact .inr ⟨rfl, rfl, rfl⟩

theorem eq_serializeTransaction_append
    (h : unserializeTransaction allowWitness bs = .ok (tx, rest)) :
    tx.Readable allowWitness ∧ bs = serializeTransaction allowWitness tx ++ rest := by
  obtain ⟨version, mid, hversion, hbodyRun⟩ := bind_eq_ok.1 h
  obtain ⟨⟨flags, vin₀, vout⟩, mid', hbody, hflaggedRun⟩ := bind_eq_ok.1 hbodyRun
  obtain ⟨⟨flags', vin⟩, mid'', hflagged, hlockRun⟩ := bind_eq_ok.1 hflaggedRun
  dsimp only at hflaggedRun hlockRun hflagged
  split_ifs at hlockRun with hzero
  · exact absurd hlockRun (by rintro ⟨⟩)
  rw [not_not] at hzero
  subst hzero
  obtain ⟨nLockTime, mid₃, hlock, hpure⟩ := bind_eq_ok.1 hlockRun
  obtain ⟨rfl, rfl⟩ := mk.inj (ok.inj hpure)
  obtain ⟨-, rfl⟩ := lawful_unserUInt32.canonical _ _ _ hversion
  obtain ⟨-, rfl⟩ := lawful_unserUInt32.canonical _ _ _ hlock
  obtain ⟨⟨hvin, hvout, hflags⟩, rfl⟩ := (lawful_unserBody allowWitness).canonical _ _ _ hbody
  rcases unserFlagged_eq_ok hflagged with ⟨rfl, rfl, hhas, hread⟩ | ⟨rfl, rfl, rfl⟩
  · obtain ⟨⟨hstack, hstrip⟩, rfl⟩ := (lawful_unserWitnesses vin₀).canonical _ _ _ hread
    refine ⟨⟨sized_of hvin hvout hstrip hstack, ?_⟩, ?_⟩
    · rintro rfl
      exact absurd hhas (by simp [hasWitness])
    · have hsame : serVector serTxIn vin₀ = serVector serTxIn vin := by
        rw [← serVector_stripWitness vin₀, ← hstrip, serVector_stripWitness]
      simp [serializeTransaction, hhas, serBody, hsame]
  · have hhas := hvin.hasWitness_eq_false
    refine ⟨⟨sized_of hvin hvout rfl fun txin htxin => ?_, ?_⟩, ?_⟩
    · rw [(hvin.2 txin htxin).2]
      simp
    · split_ifs with hallow
      · rw [if_pos hallow] at hflags
        exact hflags rfl
      · exact hhas
    · simp [serializeTransaction, hhas, serBody]

/-- **The wire format of a transaction is lawful.** -/
theorem lawful_unserializeTransaction (allowWitness : Bool) :
    Lawful (serializeTransaction allowWitness) (unserializeTransaction allowWitness)
      (Transaction.Readable allowWitness) :=
  ⟨fun _ h rest => unserializeTransaction_append h rest,
    fun _ _ _ h => eq_serializeTransaction_append h⟩

/-- **One encoding for a transaction, one transaction for an encoding**, with an input and no
vector above `MAX_SIZE`. -/
theorem wireFormat_bijective : (∀ tx : Transaction, tx.vin ≠ [] → tx.Sized → ∀ rest,
      unserializeTransaction true (serializeTransaction true tx ++ rest) = .ok (tx, rest)) ∧
    (∀ bs tx rest, unserializeTransaction true bs = .ok (tx, rest) →
      bs = serializeTransaction true tx ++ rest) ∧
    ∀ bs bs' tx, unserializeTransaction true bs = .ok (tx, []) →
      unserializeTransaction true bs' = .ok (tx, []) → bs = bs' := by
  refine ⟨fun tx hvin hsized rest => ?_, fun bs tx rest h => (eq_serializeTransaction_append h).2,
    fun bs bs' tx h h' => ?_⟩
  · exact unserializeTransaction_append ⟨hsized, by rw [if_pos rfl]; exact fun h => absurd h hvin⟩ rest
  · rw [(eq_serializeTransaction_append h).2, (eq_serializeTransaction_append h').2]

def witnessedTx : Transaction where
  vin := [{ prevout := ⟨7, 1⟩, scriptSig := [], nSequence := 0, scriptWitness := [[1, 2], []] }]
  vout := [{ nValue := 5, scriptPubKey := [0x51] }]
  version := 2
  nLockTime := 0

theorem witnessedTx_read : witnessedTx.vin ≠ [] ∧ witnessedTx.Sized ∧
      unserializeTransaction true (serializeTransaction true witnessedTx ++ [3]) =
        .ok (witnessedTx, [3]) := by
  have hsized : witnessedTx.Sized := by
    refine ⟨by decide, by decide, fun txin h => ?_, fun txout h => ?_⟩
    · obtain rfl := mem_singleton.1 h
      exact ⟨by decide, by decide, by decide⟩
    · obtain rfl := mem_singleton.1 h
      decide
  exact ⟨by decide, hsized, wireFormat_bijective.1 witnessedTx (by decide) hsized [3]⟩

/-- A transaction whose script is one byte too long for `ReadCompactSize`. -/
def oversizedTx : Transaction where
  vin := [{ prevout := ⟨7, 1⟩, scriptSig := List.replicate (maxSize + 1) 0, nSequence := 0
            scriptWitness := [] }]
  vout := []
  version := 2
  nLockTime := 0

/-- It is written, and not read back. -/
theorem oversizedTx_not_read : oversizedTx.vin ≠ [] ∧
      unserializeTransaction true (serializeTransaction true oversizedTx ++ []) ≠
        .ok (oversizedTx, []) := by
  refine ⟨cons_ne_nil _ _, fun h => ?_⟩
  have hsized := ((eq_serializeTransaction_append h).1.1.txin _ (mem_singleton.2 rfl)).scriptSig
  rw [length_replicate] at hsized
  exact absurd hsized (Nat.not_succ_le_self _)

end Quarlcoin
