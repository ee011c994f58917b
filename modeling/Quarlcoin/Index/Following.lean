import Quarlcoin.Index.Accounts
import Quarlcoin.Validation.Issuance
/-!
# The coin statistics index — what the database keeps

Of every block on the chain of the tip the totals are under its height or under its hash; of
every block on the chain of the last commit that is not on the chain of the tip they are
under its hash (`Kept`). `RevertBlock` finds the totals of the parent under the height only
(`customRemove_cases`).
-/

namespace Quarlcoin

open Aggregate Arith Codec Coins Serialize Function Option Prod CoinStatsIndex Links BitVec BlockTree

namespace CoinStatsIndex

/-! ## Right entries -/

section

variable {G : Type} [AddCommGroup G] (env : Env G)

/-- The totals in an entry are those of a block. -/
structure IsEntryOf (n : ℕ) (coins : CoinMap) (value : DBVal) : Prop where
  muhash : value.muhash = env.finalize (utxoStats env coins).1
  accounts : CoinTotals.Accounts env n coins value.toCoinTotals

/-- **What `LookUpStats` is to return** for a UTXO set. -/
structure Describes (coins : CoinMap) (value : DBVal) : Prop where
  muhash : value.muhash = env.finalize (aggregate env.element coins)
  transactionOutputCount : value.transactionOutputCount = aggregate (fun _ _ => 1) coins
  bogoSize : value.bogoSize = aggregate (fun _ coin => getBogoSize coin.out.scriptPubKey) coins
  totalAmount : value.totalAmount.toInt = aggregate (fun _ coin => coin.out.nValue.toInt) coins
  balance : value.totalSubsidy.toInt + value.totalPrevoutSpentAmount.toNat =
    value.totalNewOutputsExCoinbaseAmount.toNat + value.totalCoinbaseAmount.toNat +
      (value.totalUnspendablesGenesisBlock.toInt + value.totalUnspendablesBip30.toInt +
        value.totalUnspendablesScripts.toInt + value.totalUnspendablesUnclaimedRewards.toInt)

variable {env} {n : ℕ} {coins : CoinMap} {value : DBVal}

/-- The amounts that came in and went out are below `2 ^ 256`, so they are balanced as
numbers, too. -/
theorem CoinTotals.Accounts.balance_eq {t : CoinTotals} (h : CoinTotals.Accounts env n coins t)
    (hrange : InRange coins) (hn : n < 2 ^ 31) :
    t.totalSubsidy.toInt + t.totalPrevoutSpentAmount.toNat =
      t.totalNewOutputsExCoinbaseAmount.toNat + t.totalCoinbaseAmount.toNat +
        (t.totalUnspendablesGenesisBlock.toInt + t.totalUnspendablesBip30.toInt +
          t.totalUnspendablesScripts.toInt + t.totalUnspendablesUnclaimedRewards.toInt) := by
  have hclaimed := h.claimed
  have hvolume : t.totalNewOutputsExCoinbaseAmount.toNat + t.totalCoinbaseAmount.toNat +
      t.totalPrevoutSpentAmount.toNat < 2 ^ 127 := h.volume.trans_lt (by omega)
  have hamount : 0 ≤ t.totalAmount.toInt := by
    have htotal : t.totalAmount.toInt = (utxoStats env coins).2.2.2 :=
      congrArg (fun d : UInt64 × UInt64 × ℤ => d.2.2) h.stats
    rw [htotal, utxoStats_amount]
    exact totalValue_nonneg hrange
  have hlt := t.totalAmount.toInt_lt
  have hnat := toNat_amount256 hamount
  have hbalance : t.totalNewOutputsExCoinbaseAmount + t.totalCoinbaseAmount =
      t.totalPrevoutSpentAmount + amount256 t.totalAmount := by
    rw [amount256_eq_ofInt hamount]
    have := h.balance
    rw [sub_eq_zero, sub_eq_iff_eq_add] at this
    rw [this, add_comm]
  have hsum := congrArg BitVec.toNat hbalance
  rw [BitVec.toNat_add, BitVec.toNat_add] at hsum
  omega

theorem IsEntryOf.describes (h : IsEntryOf env n coins value) (hrange : InRange coins)
    (hn : n < 2 ^ 31) : Describes env coins value := by
  have hstats := h.accounts.stats
  have hmuhash := h.muhash
  rw [utxoStats_eq] at hstats hmuhash
  simp only [Prod.mk.injEq] at hstats
  exact ⟨hmuhash, hstats.1, hstats.2.1, hstats.2.2, h.accounts.balance_eq hrange hn⟩

end

/-! ## The tree -/

/-- No network issues more than fits. -/
theorem issued_lt (chain : ChainType) (n : ℕ) :
    issued (createChainParams chain).consensus n < 2 ^ 62 := by
  cases chain with
  | main =>
    have hint : mainParams.consensus.nSubsidyHalvingInterval = (840000 : ℕ) := rfl
    exact (issued_le hint (by omega) n).trans_lt (by omega)
  | testnet =>
    have hint : testNetParams.consensus.nSubsidyHalvingInterval = (840000 : ℕ) := rfl
    exact (issued_le hint (by omega) n).trans_lt (by omega)
  | regtest =>
    have hint : regTestParams.consensus.nSubsidyHalvingInterval = (150 : ℕ) := rfl
    exact (issued_le hint (by omega) n).trans_lt (by omega)

variable {G : Type} {ι : Type} (env : Env G) (s : BlockStore ι) (connected : Set ι)
  (utxo : ι → CoinMap)

/-- **A tree that the index can follow**: its blocks are connected and can be read, and none is an
exception of BIP 30. -/
structure Trackable : Prop where
  tree : s.Connected env.hash connected utxo
  params : ∃ chain, env.params = (createChainParams chain).consensus
  readable : ∀ i ∈ connected, (s.readBlock i).isSome
  noRepeat : s.NoRepeat connected
  spendable : ∀ i ∈ connected, isBIP30Unspendable (s.getBlockHash i) (s.nHeight i) = false
  pays : ∀ i ∈ connected, ∀ p, s.pprev i = some p → ∀ block undo, s.readBlock i = some block →
    s.readBlockUndo i = some undo → BlockPays env.params (s.nHeight i) block undo

namespace Trackable

variable {env s connected utxo} {i p : ι}

section

variable (h : Trackable env s connected utxo)
include h

theorem issued_lt (n : ℕ) : issued env.params n < 2 ^ 62 := by
  obtain ⟨chain, hparams⟩ := h.params
  rw [hparams]
  exact CoinStatsIndex.issued_lt chain n

variable (hi : i ∈ connected)
include hi

theorem blockInfo_child (hp : s.pprev i = some p) :
    ∃ b, blockInfo s i = .ok b ∧ b.hash = s.getBlockHash i ∧
      b.prevHash = some (s.getBlockHash p) ∧ b.height = s.nHeight p + 1 ∧
      Follows env b (utxo p) (utxo i) := by
  obtain ⟨block, undo, hread, hreadUndo, hconnects⟩ := h.tree.connects i hi p hp
  have hheight := s.height_child i p hp
  refine ⟨⟨s.getBlockHash i, some (s.getBlockHash p), s.nHeight i, block, undo⟩, ?_, rfl, rfl,
    hheight, hconnects, h.noRepeat.isBIP30Repeat hi hread, h.spendable i hi,
    h.pays i hi p hp block undo hread hreadUndo⟩
  have hpos : s.nHeight i > 0 := by omega
  simp only [blockInfo, hread, if_pos hpos, hreadUndo, hp, map_some]

theorem blockInfo_genesis (hp : s.pprev i = none) :
    ∃ b, blockInfo s i = .ok b ∧ b.hash = s.getBlockHash i ∧ b.height = 0 := by
  obtain ⟨block, hread⟩ := isSome_iff_exists.1 (h.readable i hi)
  have hheight := s.height_genesis i hp
  refine ⟨⟨s.getBlockHash i, none, 0, block, ⟨[]⟩⟩, ?_, rfl, rfl⟩
  simp only [blockInfo, hread, hheight, Nat.lt_irrefl, if_false, hp, map_none]

theorem inRange : InRange (utxo i) := by
  induction hn : s.nHeight i using Nat.strong_induction_on generalizing i with
  | _ n ih =>
  cases hp : s.pprev i with
  | none =>
    rw [h.tree.genesis i hi hp]
    exact fun _ _ hnone => nomatch hnone
  | some p =>
    have hheight := s.height_child i p hp
    have hparent := ih (s.nHeight p) (by omega) (h.tree.pprev i hi p hp) rfl
    obtain ⟨b, -, -, -, -, hfollows⟩ := h.blockInfo_child hi hp
    exact hfollows.inRange hparent

theorem getBlockHash_injective
    (hp : p ∈ connected) (heq : s.getBlockHash i = s.getBlockHash p) : i = p := by
  have hlookup := h.tree.lookup i hi
  rw [heq, h.tree.lookup p hp] at hlookup
  exact (some.inj hlookup).symm

end

end Trackable

/-! ## What the database keeps -/

variable [AddCommGroup G] (db : IndexDB G) (a : ι)

/-- The totals of a block are under its height. -/
def Listed : Prop :=
  ∃ value, readEntry unserPair (db.heightIndex (s.nHeight a)) = some (s.getBlockHash a, value) ∧
    IsEntryOf env (s.nHeight a) (utxo a) value

/-- The entry under the height of a block is one of that block. -/
def Named (s : BlockStore ι) (db : IndexDB G) (a : ι) : Prop :=
  ∃ value, readEntry unserPair (db.heightIndex (s.nHeight a)) = some (s.getBlockHash a, value)

/-- The totals of a block are under its hash. -/
def Saved : Prop :=
  ∃ value, db.hashIndex (s.getBlockHash a) = some (serDBVal value) ∧
    IsEntryOf env (s.nHeight a) (utxo a) value

/-- **What the database keeps**, of the chains of the tip and of the block of the last
commit. -/
structure Kept (tip committed : Option ι) (db : IndexDB G) : Prop where
  mem : ∀ i, tip = some i ∨ committed = some i → i ∈ connected
  heights : ∀ k bytes, db.heightIndex k = some bytes → ∃ a ∈ connected, s.nHeight a = k ∧
    ∃ value, bytes = serPair (s.getBlockHash a, value) ∧ IsEntryOf env (s.nHeight a) (utxo a) value
  hashes : ∀ hash bytes, db.hashIndex hash = some bytes → ∃ value, bytes = serDBVal value
  present : ∀ i, tip = some i ∨ committed = some i → ∀ k ≤ s.nHeight i,
    (db.heightIndex k).isSome
  onTip : ∀ i, tip = some i → ∀ a, s.OnChain a i → Listed env s utxo db a ∨ Saved env s utxo db a
  onCommitted : ∀ c, committed = some c → ∀ a, s.OnChain a c →
    (∃ i, tip = some i ∧ s.OnChain a i) ∨ Saved env s utxo db a

section

variable {env s connected utxo} {db : IndexDB G} {tip committed : Option ι} {i p a : ι}

section

variable (h : Kept env s connected utxo tip committed db)
include h

variable (htree : Trackable env s connected utxo)
include htree

theorem Kept.read (ha : a ∈ connected) (hsome : (db.heightIndex (s.nHeight a)).isSome) :
    Listed env s utxo db a ∨ ∃ b ∈ connected, s.getBlockHash b ≠ s.getBlockHash a ∧
      s.nHeight b = s.nHeight a ∧ Listed env s utxo db b := by
  obtain ⟨bytes, hbytes⟩ := isSome_iff_exists.1 hsome
  obtain ⟨b, hb, hheight, value, rfl, hentry⟩ := h.heights _ _ hbytes
  have hread : readEntry unserPair (db.heightIndex (s.nHeight a)) =
      some (s.getBlockHash b, value) := by
    rw [hbytes]
    exact readEntry_of_lawful lawful_unserPair _
  by_cases heq : s.getBlockHash b = s.getBlockHash a
  · obtain rfl := htree.getBlockHash_injective hb ha heq
    exact .inl ⟨value, hread, hentry⟩
  · refine .inr ⟨b, hb, heq, hheight, value, ?_, hentry⟩
    rw [hheight]
    exact hread

/-- **Looking up** a block whose totals are kept. -/
theorem Kept.lookUpOne (ha : a ∈ connected) (hsome : (db.heightIndex (s.nHeight a)).isSome)
    (hkept : Listed env s utxo db a ∨ Saved env s utxo db a) :
    ∃ value, lookUpOne (s.getBlockHash a) (s.nHeight a) db = some value ∧
      IsEntryOf env (s.nHeight a) (utxo a) value := by
  rcases h.read htree ha hsome with ⟨value, hread, hentry⟩ | ⟨b, -, hne, hheight, other, hread, -⟩
  · exact ⟨value, by simp [CoinStatsIndex.lookUpOne, hread], hentry⟩
  rw [hheight] at hread
  rcases hkept with ⟨value, hread', -⟩ | ⟨value, hhash, hentry⟩
  · rw [hread'] at hread
    exact absurd (congrArg fst (some.inj hread)).symm hne
  · refine ⟨value, ?_, hentry⟩
    simp only [CoinStatsIndex.lookUpOne, hread, if_neg hne, hhash]
    exact readEntry_of_lawful lawful_unserDBVal value

omit htree

/-- **A block is appended**: it is listed, whatever was under its height. -/
theorem Kept.put (hi : i ∈ connected) (hparent : s.pprev i = tip) {value : DBVal}
    (hentry : IsEntryOf env (s.nHeight i) (utxo i) value) :
    Kept env s connected utxo (some i) committed
      (db.put (s.nHeight i) (s.getBlockHash i, value)) := by
  -- the ancestors are at other heights, so that their entries stay
  have hbelow : ∀ a, s.OnChain a i → a ≠ i → ∃ p, tip = some p ∧ s.OnChain a p ∧
      s.nHeight a ≠ s.nHeight i := by
    intro a ha hne
    obtain rfl | ⟨p, hp, hap⟩ := ha.eq_or_pprev
    · exact absurd rfl hne
    · have hle := nHeight_le_of_onChain hap
      have hheight := s.height_child i p hp
      exact ⟨p, hparent.symm.trans hp, hap, by omega⟩
  have hput : (db.put (s.nHeight i) (s.getBlockHash i, value)).heightIndex =
      update db.heightIndex (s.nHeight i) (some (serPair (s.getBlockHash i, value))) := rfl
  constructor
  case mem =>
    rintro j (hj | hj)
    · exact some.inj hj ▸ hi
    · exact h.mem j (.inr hj)
  case heights =>
    exact FiniteMap.forall_update hput h.heights fun bytes hbytes =>
      ⟨i, hi, rfl, value, (some.inj hbytes).symm, hentry⟩
  case hashes => exact h.hashes
  case present =>
    intro j hj k hk
    rw [hput]
    by_cases hki : k = s.nHeight i
    · subst hki
      rw [update_self]
      rfl
    rw [update_of_ne hki]
    rcases hj with hj | hj
    · obtain rfl := some.inj hj
      cases hp : s.pprev i with
      | none =>
        have := s.height_genesis i hp
        omega
      | some p =>
        have := s.height_child i p hp
        exact h.present p (.inl (hparent.symm.trans hp)) k (by omega)
    · exact h.present j (.inr hj) k hk
  case onTip =>
    rintro _ ⟨rfl⟩ a ha
    by_cases hai : a = i
    · subst hai
      refine .inl ⟨value, ?_, hentry⟩
      rw [hput, update_self]
      exact readEntry_of_lawful lawful_unserPair _
    · obtain ⟨p, hp, hap, hne⟩ := hbelow a ha hai
      refine (h.onTip p hp a hap).imp_left ?_
      rintro ⟨value', hread, hentry'⟩
      exact ⟨value', by rw [hput, update_of_ne hne, hread], hentry'⟩
  case onCommitted =>
    intro c hc a ha
    refine (h.onCommitted c hc a ha).imp_left ?_
    rintro ⟨p, hp, hap⟩
    exact ⟨i, rfl, hap.trans (onChain_of_pprev (hparent.trans hp))⟩

end

/-- **The tip is taken back**: what is under its height is saved first. -/
theorem Kept.copy (h : Kept env s connected utxo (some i) committed db)
    (htree : Trackable env s connected utxo) (hp : s.pprev i = some p) :
    ∃ db', copyHeightIndexToHashIndex (s.nHeight i) db = .ok db' ∧
      db'.heightIndex = db.heightIndex ∧ db'.muhash = db.muhash ∧ db'.bestBlock = db.bestBlock ∧
      Kept env s connected utxo (some p) committed db' := by
  have hi := h.mem i (.inl rfl)
  have hpi := onChain_of_pprev hp
  -- the block that the entry names
  obtain ⟨b, hb, hheight, value, hread, hentry⟩ : ∃ b ∈ connected, s.nHeight b = s.nHeight i ∧
      Listed env s utxo db b := by
    rcases h.read htree hi (h.present i (.inl rfl) _ le_rfl) with hlisted | ⟨b, hb, -, hbi, hlisted⟩
    · exact ⟨i, hi, rfl, hlisted⟩
    · exact ⟨b, hb, hbi, hlisted⟩
  rw [hheight] at hread
  set db' : IndexDB G := { db with
    hashIndex := update db.hashIndex (s.getBlockHash b) (some (serDBVal value)) } with hdb'
  have hself : Saved env s utxo db' b := ⟨value, update_self _ _ _, hentry⟩
  have hsaved : ∀ a ∈ connected, Saved env s utxo db a → Saved env s utxo db' a := by
    rintro a ha ⟨value', hhash, hentry'⟩
    by_cases heq : s.getBlockHash a = s.getBlockHash b
    · obtain rfl := htree.getBlockHash_injective ha hb heq
      exact hself
    · exact ⟨value', (update_of_ne heq _ _).trans hhash, hentry'⟩
  have hsavedTip : Saved env s utxo db' i := by
    rcases h.onTip i rfl i (onChain_self _ i) with ⟨value', hread', -⟩ | hsaved'
    · rw [hread] at hread'
      obtain rfl := htree.getBlockHash_injective hb hi
        (congrArg fst (some.inj hread'))
      exact hself
    · exact hsaved i hi hsaved'
  refine ⟨db', by simp only [copyHeightIndexToHashIndex, hread, hdb'], rfl, rfl, rfl, ?_⟩
  constructor
  case mem =>
    rintro j (hj | hj)
    · exact some.inj hj ▸ htree.tree.pprev i hi p hp
    · exact h.mem j (.inr hj)
  case heights => exact h.heights
  case hashes =>
    exact FiniteMap.forall_update (a := s.getBlockHash b) rfl h.hashes fun bytes hbytes =>
      ⟨value, (some.inj hbytes).symm⟩
  case present =>
    rintro j (hj | hj) k hk
    · obtain rfl := some.inj hj
      exact h.present i (.inl rfl) k (hk.trans (nHeight_le_of_onChain hpi))
    · exact h.present j (.inr hj) k hk
  case onTip =>
    rintro _ ⟨rfl⟩ a ha
    have hai := ha.trans hpi
    exact (h.onTip i rfl a hai).imp_right (hsaved a (htree.tree.onChain hi hai))
  case onCommitted =>
    intro c hc a ha
    rcases h.onCommitted c hc a ha with ⟨j, hj, haj⟩ | hsaved'
    · obtain rfl := some.inj hj
      obtain rfl | ⟨p', hp', hap⟩ := haj.eq_or_pprev
      · exact .inr hsavedTip
      · obtain rfl := some.inj (hp.symm.trans hp')
        exact .inl ⟨p, rfl, hap⟩
    · exact .inr (hsaved a (htree.tree.onChain (h.mem c (.inr hc)) ha) hsaved')

/-- **The totals of the parent** are found just if they are under its height. -/
theorem Kept.readPrevEntry (h : Kept env s connected utxo (some p) committed db)
    (htree : Trackable env s connected utxo) {b : BlockInfo}
    (hheight : b.height = s.nHeight p + 1) (hprev : b.prevHash = some (s.getBlockHash p)) :
    (Named s db p ∧ ∃ value, readPrevEntry b db = .ok value ∧
      IsEntryOf env (s.nHeight p) (utxo p) value) ∨
    (¬ Named s db p ∧ readPrevEntry b db = .error .prevEntryMissing) := by
  have hp := h.mem p (.inl rfl)
  have hpos : b.height > 0 := by omega
  have hpred : b.height - 1 = s.nHeight p := by omega
  rcases h.read htree hp (h.present p (.inl rfl) _ le_rfl) with
    ⟨value, hread, hentry⟩ | ⟨a, -, hne, hat, other, hread, -⟩
  · refine .inl ⟨⟨value, hread⟩, value, ?_, hentry⟩
    simp only [CoinStatsIndex.readPrevEntry, if_pos hpos, hpred, hread, hprev, if_true]
  rw [hat] at hread
  refine .inr ⟨?_, ?_⟩
  · rintro ⟨value, hread'⟩
    rw [hread] at hread'
    exact hne (congrArg fst (some.inj hread'))
  · have hnone : readHashEntryAsPair (s.getBlockHash p) db = none := by
      rw [readHashEntryAsPair]
      cases hhash : db.hashIndex (s.getBlockHash p) with
      | none => rfl
      | some bytes =>
        obtain ⟨value, rfl⟩ := h.hashes _ _ hhash
        rw [readEntry_unserPair_serDBVal, map_none]
    simp only [CoinStatsIndex.readPrevEntry, if_pos hpos, hpred, hread, hprev, if_neg hne, hnone]

end

/-! ## Steps -/

structure Stands (i : ι) (m : Memory G) : Prop where
  memory : Memory.StandsAt env (s.nHeight i) (utxo i) m
  currentBlockHash : m.currentBlockHash = s.getBlockHash i

/-- The part of the database that only a commit writes. -/
def SameCommit (db db' : IndexDB G) : Prop := db'.muhash = db.muhash ∧ db'.bestBlock = db.bestBlock

section

variable {env s connected utxo} {db : IndexDB G} {m : Memory G} {tip committed : Option ι}
  {i p a : ι}

theorem Stands.entry (h : Stands env s utxo i m) :
    IsEntryOf env (s.nHeight i) (utxo i) (m.entry env) :=
  ⟨congrArg env.finalize h.memory.muhash, h.memory.accounts⟩

/-- **A block is taken back** just if the entry of its parent is under its height. -/
theorem customRemove_cases (htree : Trackable env s connected utxo)
    (hkept : Kept env s connected utxo (some i) committed db) (hm : Stands env s utxo i m)
    (hp : s.pprev i = some p) : ∃ b, blockInfo s i = .ok b ∧
      ((Named s db p ∧ ∃ m' db', customRemove env b m db = .ok (m', db') ∧
        Stands env s utxo p m' ∧ Kept env s connected utxo (some p) committed db' ∧
        db'.heightIndex = db.heightIndex ∧ SameCommit db db') ∨
      (¬ Named s db p ∧ customRemove env b m db = .error .prevEntryMissing)) := by
  obtain ⟨b, hinfo, hhash, hprev, hheight, hfollows⟩ :=
    htree.blockInfo_child (hkept.mem i (.inl rfl)) hp
  refine ⟨b, hinfo, ?_⟩
  obtain ⟨db', hcopy, hheights, hmuhash, hbest, hkept'⟩ := hkept.copy htree hp
  rw [s.height_child i p hp, ← hheight] at hcopy
  have hnamed : Named s db' p ↔ Named s db p := by rw [Named, Named, hheights]
  rw [← hnamed]
  refine (hkept'.readPrevEntry htree hheight hprev).imp ?_ ?_
  · rintro ⟨hyes, value, hread, hentry⟩
    have hrevert := hfollows.revertTxs m.muhash
    rw [hm.memory.muhash, sub_sub_cancel] at hrevert
    refine ⟨hyes, { value with
      muhash := (utxoStats env (utxo p)).1, currentBlockHash := s.getBlockHash p }, db', ?_,
      ⟨⟨rfl, hentry.accounts⟩, rfl⟩, hkept', hheights, hmuhash, hbest⟩
    simp only [customRemove, hcopy, revertBlock, hread, hm.memory.muhash, hrevert, ok_bind,
      if_pos hentry.muhash, hprev]
  · rintro ⟨hno, hread⟩
    exact ⟨hno, by simp only [customRemove, hcopy, revertBlock, hread, bind, Except.bind]⟩

variable [DecidableEq ι]

/-- The blocks that a rewind to `f` passes, but for the tip, are listed. -/
def Passes (s : BlockStore ι) (db : IndexDB G) (f i : ι) : Prop :=
  ∀ a, s.OnChain f a → s.OnChain a i → a ≠ i → Named s db a

omit [AddCommGroup G] in
theorem passes_iff {f : ι} {db' : IndexDB G} (hp : s.pprev i = some p) (hfp : s.OnChain f p)
    (hheights : db'.heightIndex = db.heightIndex) :
    Passes s db f i ↔ Named s db p ∧ Passes s db' f p := by
  have hheight := s.height_child i p hp
  have hnamed : ∀ a, Named s db' a ↔ Named s db a := fun a => by rw [Named, Named, hheights]
  have hne : ∀ a, s.OnChain a p → a ≠ i := by
    rintro a hap rfl
    have := nHeight_le_of_onChain hap
    omega
  constructor
  · intro h
    refine ⟨h p hfp (onChain_of_pprev hp) (hne p (onChain_self _ p)), ?_⟩
    intro a hfa hap _
    exact (hnamed a).2 (h a hfa (hap.trans (onChain_of_pprev hp)) (hne a hap))
  · rintro ⟨hparent, h⟩ a hfa hai hai'
    obtain rfl | ⟨p', hp', hap⟩ := hai.eq_or_pprev
    · exact absurd rfl hai'
    obtain rfl := some.inj (hp.symm.trans hp')
    by_cases heq : a = p
    · exact heq ▸ hparent
    · exact (hnamed a).1 (h a hfa hap heq)

/-- **The loop of `Rewind`** succeeds just if it passes. -/
theorem rewindLoop_cases (htree : Trackable env s connected utxo) {f : ι} {fuel : ℕ}
    (hkept : Kept env s connected utxo (some i) committed db) (hm : Stands env s utxo i m)
    (hf : s.OnChain f i) (hfuel : s.nHeight i < fuel) :
    (Passes s db f i ∧ ∃ m' db', rewindLoop env s f fuel i m db = .ok (m', db') ∧
      Stands env s utxo f m' ∧ Kept env s connected utxo (some f) committed db' ∧
      db'.heightIndex = db.heightIndex ∧ SameCommit db db') ∨
    (¬ Passes s db f i ∧ rewindLoop env s f fuel i m db = .error .prevEntryMissing) := by
  induction fuel generalizing i m db with
  | zero => omega
  | succ fuel ih =>
    by_cases heq : i = f
    · subst heq
      refine .inl ⟨fun a hfa hai hne => ?_, m, db, ?_, hm, hkept, rfl, rfl, rfl⟩
      · have := nHeight_le_of_onChain hfa
        obtain rfl | ⟨p, hp, hap⟩ := hai.eq_or_pprev
        · exact absurd rfl hne
        · have := nHeight_le_of_onChain hap
          have := s.height_child i p hp
          omega
      · rw [rewindLoop, if_pos rfl]
    obtain rfl | ⟨p, hp, hfp⟩ := hf.eq_or_pprev
    · exact absurd rfl heq
    have hheight := s.height_child i p hp
    obtain ⟨b, hinfo, ⟨hnamed, m₁, db₁, hremove, hm₁, hkept₁, hheights, hcommit⟩ | ⟨hno, hremove⟩⟩ :=
      customRemove_cases htree hkept hm hp
    · rw [passes_iff hp hfp hheights]
      refine (ih hkept₁ hm₁ hfp (by omega)).imp ?_ ?_
      · rintro ⟨hpass, m', db', hloop, hm', hkept', hheights', hcommit'⟩
        refine ⟨⟨hnamed, hpass⟩, m', db', ?_, hm', hkept', hheights'.trans hheights,
          hcommit'.1.trans hcommit.1, hcommit'.2.trans hcommit.2⟩
        simp only [rewindLoop, if_neg heq, hinfo, hremove, ok_bind, hp, hloop]
      · rintro ⟨hpass, hloop⟩
        refine ⟨fun h => hpass h.2, ?_⟩
        simp only [rewindLoop, if_neg heq, hinfo, hremove, ok_bind, hp, hloop]
    · rw [passes_iff hp hfp rfl]
      refine .inr ⟨fun h => hno h.1, ?_⟩
      simp only [rewindLoop, if_neg heq, hinfo, hremove, bind, Except.bind]

end

end CoinStatsIndex

end Quarlcoin
