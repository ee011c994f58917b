import Mathlib.Tactic.FinCases
import Quarlcoin.Index.Following
/-!
# The coin statistics index — whole runs

In every state the lookups of the blocks of the chain are right, and the next event succeeds
unless it has to rewind over a block whose entry under its height has been overwritten
(`coinStats_of_reachable`). That happens when a crash brings a committed branch back; then
the index is stuck (`branchIndex_stuck`).
-/

namespace Quarlcoin

open Aggregate Arith Codec Coins Serialize Option CoinStatsIndex BlockTree List Set

namespace CoinStatsIndex

variable {G : Type} {ι : Type} (env : Env G) (s : BlockStore ι) (connected : Set ι)
  (utxo : ι → CoinMap) [AddCommGroup G]

/-! ## Runs -/

/-- **What the index keeps**, after any number of steps. -/
structure Tracks (x : Index ι G) : Prop where
  memory : ∀ i, x.best = some i → Stands env s utxo i x.memory
  empty : x.best = none → x.memory = { muhash := 0 }
  commit : ∃ committed : Option ι, (x.best = none → committed = none) ∧
    x.db.bestBlock = committed.map s.getBlockHash ∧
    x.db.muhash = committed.map (fun c => (utxoStats env (utxo c)).1) ∧
    Kept env s connected utxo x.best committed x.db

section

variable {env s connected utxo} {x : Index ι G} {i f : ι}

/-- **Appending** the next block. -/
theorem Tracks.processBlock (h : Tracks env s connected utxo x)
    (htree : Trackable env s connected utxo) (hi : i ∈ connected) (hparent : s.pprev i = x.best) :
    ∃ x' value, processBlock env s i x = .ok x' ∧ Tracks env s connected utxo x' ∧
      x'.best = some i ∧ x'.db = x.db.put (s.nHeight i) (s.getBlockHash i, value) := by
  obtain ⟨committed, -, hbest, hmuhash, hkept⟩ := h.commit
  -- the memory is at the block, and its entry is put under the height
  obtain ⟨b, m', hinfo, happend, hm'⟩ : ∃ b m', blockInfo s i = .ok b ∧
      customAppend env b x.memory x.db =
        .ok (m', x.db.put (s.nHeight i) (s.getBlockHash i, m'.entry env)) ∧
      Stands env s utxo i m' := by
    cases hp : s.pprev i with
    | none =>
      obtain ⟨b, hinfo, hhash, hheight⟩ := htree.blockInfo_genesis hi hp
      obtain ⟨m', happend, hcurrent, hstands⟩ := customAppend_genesis env 0 hheight
        x.db
      rw [h.empty (hparent.symm.trans hp), s.height_genesis i hp, ← hheight, ← hhash]
      rw [← htree.tree.genesis i hi hp] at hstands
      exact ⟨b, m', hinfo, happend, ⟨(s.height_genesis i hp).symm ▸ hstands, hcurrent.trans hhash⟩⟩
    | some p =>
      have hm := h.memory p (hparent.symm.trans hp)
      obtain ⟨b, hinfo, hhash, hprev, hheight, hfollows⟩ := htree.blockInfo_child hi hp
      obtain ⟨m', happend, hcurrent, hstands, -⟩ := hfollows.customAppend hheight
        (hprev.trans (congrArg some hm.currentBlockHash.symm)) hm.memory
        (htree.inRange (htree.tree.pprev i hi p hp)) (htree.issued_lt _) x.db
      rw [s.height_child i p hp, ← hheight, ← hhash]
      refine ⟨b, m', hinfo, happend, ?_, hcurrent.trans hhash⟩
      rw [s.height_child i p hp, ← hheight]
      exact hstands
  refine ⟨⟨some i, m', x.db.put (s.nHeight i) (s.getBlockHash i, m'.entry env)⟩, m'.entry env,
    by simp only [CoinStatsIndex.processBlock, hinfo, happend, ok_bind], ⟨?_,
    (fun hnone => nomatch hnone), committed, (fun hnone => nomatch hnone), hbest, hmuhash,
    hkept.put hi hparent hm'.entry⟩, rfl, rfl⟩
  rintro _ ⟨rfl⟩
  exact hm'

theorem onChain_of_getAncestor {height : ℤ} (h : s.getAncestor i height = some f) :
    s.OnChain f i := by
  by_cases hrange : (s.nHeight i : ℤ) < height ∨ height < 0
  · rw [Links.getAncestor, if_pos hrange] at h
    cases h
  · obtain ⟨k, rfl⟩ := Int.eq_ofNat_of_zero_le (not_lt.1 fun hneg => hrange (.inr hneg))
    rw [s.getAncestor_eq_back (by omega)] at h
    exact ⟨_, h⟩

variable (h : Tracks env s connected utxo x)
include h

/-- **Committing** the tip, or not. -/
theorem Tracks.commit_spec [DecidableEq ι] (lastFlushed : Option ι) : Tracks env s connected utxo
    (CoinStatsIndex.commit s lastFlushed x) := by
  rw [commit.eq_def]
  split
  · rename_i indexTip flushed hbest
    split
    · obtain ⟨committed, -, -, -, hkept⟩ := h.commit
      have hm := h.memory indexTip hbest
      refine ⟨h.memory, h.empty, some indexTip, fun hnone => ?_, rfl, ?_, ?_⟩
      · rw [hbest] at hnone
        cases hnone
      · exact congrArg some hm.memory.muhash
      · refine ⟨?_, hkept.heights, hkept.hashes, ?_, hkept.onTip, ?_⟩
        · rintro j (hj | hj)
          · exact hkept.mem j (.inl hj)
          · exact hkept.mem j (.inl (hbest.trans hj))
        · rintro j (hj | hj)
          · exact hkept.present j (.inl hj)
          · exact hkept.present j (.inl (hbest.trans hj))
        · intro c hc a ha
          exact .inl ⟨c, hbest.trans hc, ha⟩
    · exact h
  · exact h

/-- **Starting again** from the database. -/
theorem Tracks.init_spec (htree : Trackable env s connected utxo) :
    ∃ x', init env s x.db = .ok x' ∧ Tracks env s connected utxo x' ∧ x'.db = x.db ∧
      x'.best = x.db.bestBlock.bind s.lookupBlockIndex := by
  obtain ⟨committed, -, hbest, hmuhash, hkept⟩ := h.commit
  cases committed with
  | none =>
    rw [map_none] at hbest hmuhash
    refine ⟨⟨none, { muhash := 0 }, x.db⟩, ?_, ⟨(fun _ hsome => nomatch hsome), fun _ => rfl, none,
      fun _ => rfl, hbest, hmuhash, ?_⟩, rfl, by rw [hbest]; rfl⟩
    · simp only [init, hbest, customInit, hmuhash, getD_none, ok_bind]
    · refine ⟨?_, hkept.heights, hkept.hashes, ?_, (fun _ hno => nomatch hno),
        fun _ hno => nomatch hno⟩
      · rintro j (hj | hj) <;> cases hj
      · rintro j (hj | hj) <;> cases hj
  | some c =>
    rw [map_some] at hbest hmuhash
    have hc := hkept.mem c (.inr rfl)
    have hall : ∀ a, s.OnChain a c →
        Listed env s utxo x.db a ∨ Saved env s utxo x.db a := by
      intro a ha
      rcases hkept.onCommitted c rfl a ha with ⟨i, hi, hai⟩ | hsaved
      · exact hkept.onTip i hi a hai
      · exact .inr hsaved
    obtain ⟨value, hlook, hentry⟩ := hkept.lookUpOne htree hc
      (hkept.present c (.inr rfl) _ le_rfl) (hall c (Links.onChain_self _ c))
    refine ⟨⟨some c, { value with
      muhash := (utxoStats env (utxo c)).1, currentBlockHash := s.getBlockHash c }, x.db⟩, ?_, ⟨?_,
      (fun hnone => nomatch hnone), some c, (fun hnone => nomatch hnone), hbest, hmuhash, ?_⟩, rfl,
      by rw [hbest, bind_some, htree.tree.lookup c hc]⟩
    · have hne : ¬ value.muhash ≠ env.finalize (utxoStats env (utxo c)).1 :=
        not_not.2 hentry.muhash
      simp only [init, hbest, htree.tree.lookup c hc, customInit, hmuhash, getD_some, hlook,
        if_neg hne, ok_bind]
    · rintro _ ⟨rfl⟩
      exact ⟨⟨rfl, hentry.accounts⟩, rfl⟩
    · refine ⟨?_, hkept.heights, hkept.hashes, ?_, ?_, ?_⟩
      · rintro j (⟨⟨⟩⟩ | ⟨⟨⟩⟩) <;> exact hc
      · rintro j (⟨⟨⟩⟩ | ⟨⟨⟩⟩) <;> exact hkept.present c (.inr rfl)
      · rintro _ ⟨rfl⟩
        exact hall
      · rintro _ ⟨rfl⟩ a ha
        exact .inl ⟨c, rfl, ha⟩

omit h

variable [DecidableEq ι] (h : Tracks env s connected utxo x)
include h

variable (htree : Trackable env s connected utxo)
include htree

/-- **Rewinding** to a block of the chain succeeds just if it passes. -/
theorem Tracks.rewind_cases (hbest : x.best = some i) (hf : s.OnChain f i) :
    (Passes s x.db f i ∧ ∃ x', rewind env s f x = .ok x' ∧ Tracks env s connected utxo x' ∧
      x'.best = some f ∧ x'.db.heightIndex = x.db.heightIndex ∧ SameCommit x.db x'.db) ∨
    (¬ Passes s x.db f i ∧ rewind env s f x = .error .prevEntryMissing) := by
  obtain ⟨committed, -, hbestBlock, hmuhash, hkept⟩ := h.commit
  rw [hbest] at hkept
  have hget := getAncestor_of_onChain hf
  refine (rewindLoop_cases htree hkept (h.memory i hbest) hf (Nat.lt_succ_self _)).imp ?_ ?_
  · rintro ⟨hpass, m', db', hloop, hm', hkept', hheights, hcommit⟩
    refine ⟨hpass, ⟨some f, m', db'⟩, ?_, ⟨?_, (fun hnone => nomatch hnone), committed,
      (fun hnone => nomatch hnone), hcommit.2.trans hbestBlock, hcommit.1.trans hmuhash, hkept'⟩,
      rfl, hheights, hcommit⟩
    · simp only [rewind, hbest, if_pos hget, hloop, ok_bind]
    · rintro _ ⟨rfl⟩
      exact hm'
  · rintro ⟨hpass, hloop⟩
    refine ⟨hpass, ?_⟩
    simp only [rewind, hbest, if_pos hget, hloop, bind, Except.bind]

/-- **A block of the chainstate**: the index is rewound to its parent if that is on the
chain, and leaves the block alone otherwise. -/
theorem Tracks.blockConnected_cases (hi : i ∈ connected)
    (hgenesis : x.best = none ↔ s.pprev i = none) :
    ((∀ p tip, s.pprev i = some p → x.best = some tip → Passes s x.db p tip) ∧
      ∃ x', blockConnected env s i x = .ok x' ∧ Tracks env s connected utxo x') ∨
    ((∃ p tip, s.pprev i = some p ∧ x.best = some tip ∧ ¬ Passes s x.db p tip) ∧
      blockConnected env s i x = .error .prevEntryMissing) := by
  cases hbest : x.best with
  | none =>
    have hp := hgenesis.1 hbest
    obtain ⟨x', -, hprocess, hx', -⟩ := h.processBlock htree hi (hp.trans hbest.symm)
    refine .inl ⟨(fun _ _ _ hsome => nomatch hsome), x', ?_, hx'⟩
    simp only [blockConnected, hbest, s.height_genesis i hp, if_true, hprocess]
  | some tip =>
    cases hp : s.pprev i with
    | none =>
      rw [hgenesis.2 hp] at hbest
      cases hbest
    | some p =>
      have hheight := s.height_child i p hp
      have hcast : ((s.nHeight i : ℤ) - 1) = (s.nHeight p : ℤ) := by omega
      by_cases hon : s.OnChain p tip
      · have hget := getAncestor_of_onChain hon
        by_cases heq : tip = p
        · subst heq
          obtain ⟨x', -, hprocess, hx', -⟩ := h.processBlock htree hi (hp.trans hbest.symm)
          refine .inl ⟨?_, x', ?_, hx'⟩
          · rintro _ _ ⟨⟩ ⟨⟩ a hpa hap hne
            have hle := nHeight_le_of_onChain hpa
            obtain rfl | ⟨q, hq, haq⟩ := hap.eq_or_pprev
            · exact absurd rfl hne
            · have := nHeight_le_of_onChain haq
              have := s.height_child _ _ hq
              omega
          · simp only [blockConnected, hbest, hcast, hget, hp, ne_eq,
              not_true_eq_false, if_false, if_true, hprocess]
        · refine (h.rewind_cases htree hbest hon).imp ?_ ?_
          · rintro ⟨hpass, x₁, hrewind, hx₁, hbest₁, -⟩
            obtain ⟨x', -, hprocess, hx', -⟩ := hx₁.processBlock htree hi (hp.trans hbest₁.symm)
            refine ⟨?_, x', ?_, hx'⟩
            · rintro _ _ ⟨⟩ ⟨⟩
              exact hpass
            · simp only [blockConnected, hbest, hcast, hget, hp, ne_eq,
                not_true_eq_false, if_false, if_neg heq, hrewind, ok_bind, hprocess]
          · rintro ⟨hpass, hrewind⟩
            refine ⟨⟨p, tip, rfl, rfl, hpass⟩, ?_⟩
            simp only [blockConnected, hbest, hcast, hget, hp, ne_eq,
              not_true_eq_false, if_false, if_neg heq, hrewind, bind, Except.bind]
      · refine .inl ⟨?_, x, ?_, h⟩
        · rintro _ _ ⟨⟩ ⟨⟩ a hpa hat _
          exact absurd (hpa.trans hat) hon
        · have hne : s.getAncestor tip (s.nHeight p) ≠ some p := fun hget =>
            hon (onChain_of_getAncestor hget)
          simp only [blockConnected, hbest, hcast, hp, if_pos hne]

end

variable (x : Index ι G)

/-- **What may happen** to the index: a block is appended to its parent, or a rewind goes down the
chain of the tip. -/
def Event.Allowed : Event ι → Prop
  | .append i => i ∈ connected ∧ s.pprev i = x.best
  | .rewind f => ∃ tip, x.best = some tip ∧ s.OnChain f tip
  | .blockConnected i => i ∈ connected ∧ (x.best = none ↔ s.pprev i = none)
  | .commit _ => True
  | .crash => True

/-- **The rewind of an event passes**: the entries under the heights it passes are those of its
blocks. -/
def Event.Passes : Event ι → Prop
  | .rewind f => ∀ tip, x.best = some tip → CoinStatsIndex.Passes s x.db f tip
  | .blockConnected i =>
    ∀ p tip, s.pprev i = some p → x.best = some tip → CoinStatsIndex.Passes s x.db p tip
  | _ => True

variable [DecidableEq ι]

/-- The states of all runs, from an empty database. -/
inductive Reachable : Index ι G → Prop
  | start : Reachable ⟨none, { muhash := 0 }, {}⟩
  | step {x x' : Index ι G} (e : Event ι) : Reachable x → e.Allowed s connected x →
      exec env s x e = .ok x' → Reachable x'

section

variable {env s connected utxo} {x : Index ι G}

/-- **One event** succeeds just if its rewind passes. -/
theorem Tracks.exec_cases (h : Tracks env s connected utxo x)
    (htree : Trackable env s connected utxo) {e : Event ι} (he : e.Allowed s connected x) :
    (e.Passes s x ∧ ∃ x', exec env s x e = .ok x' ∧ Tracks env s connected utxo x') ∨
    (¬ e.Passes s x ∧ exec env s x e = .error .prevEntryMissing) := by
  cases e with
  | append i =>
    obtain ⟨x', -, hprocess, hx', -⟩ := h.processBlock htree he.1 he.2
    exact .inl ⟨trivial, x', hprocess, hx'⟩
  | rewind f =>
    obtain ⟨tip, hbest, hf⟩ := he
    refine (h.rewind_cases htree hbest hf).imp ?_ ?_
    · rintro ⟨hpass, x', hrewind, hx', -⟩
      refine ⟨?_, x', hrewind, hx'⟩
      intro tip' hbest'
      rw [hbest] at hbest'
      exact some.inj hbest' ▸ hpass
    · rintro ⟨hpass, hrewind⟩
      exact ⟨fun hall => hpass (hall tip hbest), hrewind⟩
  | blockConnected i =>
    refine (h.blockConnected_cases htree he.1 he.2).imp id ?_
    rintro ⟨⟨p, tip, hp, hbest, hpass⟩, hfail⟩
    exact ⟨fun hall => hpass (hall p tip hp hbest), hfail⟩
  | commit lastFlushed => exact .inl ⟨trivial, _, rfl, h.commit_spec lastFlushed⟩
  | crash =>
    obtain ⟨x', hinit, hx', -⟩ := h.init_spec htree
    exact .inl ⟨trivial, x', hinit, hx'⟩

omit [DecidableEq ι] in
theorem tracks_start : Tracks env s connected utxo ⟨none, { muhash := 0 }, {}⟩ := by
  refine ⟨(fun _ hsome => nomatch hsome), fun _ => rfl, none, fun _ => rfl, rfl, rfl, ?_⟩
  refine ⟨?_, (fun _ _ hsome => nomatch hsome), (fun _ _ hsome => nomatch hsome), ?_,
    (fun _ hsome => nomatch hsome), fun _ hsome => nomatch hsome⟩
  · rintro j (hj | hj) <;> cases hj
  · rintro j (hj | hj) <;> cases hj

/-- **Every run.** -/
theorem Reachable.tracks (h : Reachable env s connected x)
    (htree : Trackable env s connected utxo) : Tracks env s connected utxo x := by
  induction h with
  | start => exact tracks_start
  | step e _ he hexec ih =>
    obtain ⟨-, x', hexec', hx'⟩ | ⟨-, hfail⟩ := ih.exec_cases htree he
    · rw [hexec] at hexec'
      exact Except.ok.inj hexec' ▸ hx'
    · rw [hexec] at hfail
      cases hfail

omit [DecidableEq ι] in
theorem Tracks.lookUpOne (h : Tracks env s connected utxo x)
    (htree : Trackable env s connected utxo) {tip a : ι} (hbest : x.best = some tip)
    (ha : s.OnChain a tip) : ∃ value, lookUpOne (s.getBlockHash a) (s.nHeight a) x.db = some value ∧
      Describes env (utxo a) value := by
  obtain ⟨committed, -, -, -, hkept⟩ := h.commit
  have hmem := htree.tree.onChain (hkept.mem tip (.inl hbest)) ha
  obtain ⟨value, hlook, hentry⟩ := hkept.lookUpOne htree hmem
    (hkept.present tip (.inl hbest) _ (nHeight_le_of_onChain ha)) (hkept.onTip tip hbest a ha)
  exact ⟨value, hlook, hentry.describes (htree.inRange hmem) (htree.tree.height_lt a hmem)⟩

end

/-- **The index equals the UTXO set.** A lookup of any block of the chain returns the statistics
after it, and the next event succeeds just if its rewind passes. -/
theorem coinStats_of_reachable (htree : Trackable env s connected utxo) (x : Index ι G)
    (hx : Reachable env s connected x) : (∀ tip, x.best = some tip → ∀ a, s.OnChain a tip →
      ∃ value, lookUpOne (s.getBlockHash a) (s.nHeight a) x.db = some value ∧
        Describes env (utxo a) value) ∧
    ∀ e : Event ι, e.Allowed s connected x → ((∃ x', exec env s x e = .ok x') ↔ e.Passes s x) := by
  have htracks := hx.tracks htree
  refine ⟨fun tip hbest a ha => htracks.lookUpOne htree hbest ha, fun e he => ?_⟩
  obtain ⟨hpass, x', hexec, -⟩ | ⟨hpass, hfail⟩ := htracks.exec_cases htree he
  · exact ⟨fun _ => hpass, fun _ => ⟨x', hexec⟩⟩
  · refine ⟨?_, fun hyes => absurd hyes hpass⟩
    rintro ⟨x', hexec⟩
    rw [hfail] at hexec
    cases hexec

/-! ### A branch that comes back

Above the genesis block `0` there are a branch of the blocks `1` and `2` and another one
of the block `3`. -/

def branchTree : BlockTree (Fin 4) where
  pprev i := if i = 0 then none else if i = 2 then some 1 else some 0
  pskip i := if i = 0 then none else some 0
  nHeight i := if i = 0 then 0 else if i = 2 then 2 else 1
  nTime _ := 0
  height_genesis := by decide
  height_child := by decide
  skip_genesis := by decide
  skip_child := by decide

/-- Every block has a coinbase of its own. -/
def branchStore : BlockStore (Fin 4) where
  toBlockTree := branchTree
  getBlockHash i := BitVec.ofNat 256 (i + 1)
  lookupBlockIndex hash :=
    if hash = 1 then some 0 else if hash = 2 then some 1 else if hash = 3 then some 2 else some 3
  readRawBlock i := some (coinbaseBlock (replicate (i + 2) 0) [0x51])
  readBlockUndo _ := some ⟨[]⟩
  getHash header := BitVec.ofNat 256 (header.nNonce.toNat - 1)
  checkProofOfWork _ := true

theorem branchStore_readBlock (i : Fin 4) :
    branchStore.readBlock i = some (coinbaseBlock (replicate (i + 2) 0) [0x51]) := by
  fin_cases i <;> rfl

def branchUtxo (i : Fin 4) : CoinMap :=
  if i = 0 then fun _ => none
  else if i = 2 then
    coinbaseUtxo countHash 2 (replicate 4 0) [0x51]
      (coinbaseUtxo countHash 1 (replicate 3 0) [0x51] fun _ => none)
  else coinbaseUtxo countHash 1 (replicate (i + 2) 0) [0x51] fun _ => none

/-- Coins are counted, for a hash of the UTXO set. -/
def countEnv : Env ℤ where
  params := regTestParams.consensus
  hash := countHash
  element _ _ := 1
  finalize := BitVec.ofInt 256

theorem branchStore_connected : branchStore.Connected countHash univ branchUtxo where
  oneGenesis := by unfold BlockTree.OneGenesis; decide
  height_lt := by decide
  getBlockHash_ne i _ := by revert i; decide
  lookup i _ := by revert i; decide
  pprev _ _ _ _ := trivial
  genesis i _ hp := by
    have hi : i = 0 := by revert i; decide
    rw [branchUtxo, if_pos hi]
  connects i _ p hp := by
    refine ⟨_, _, branchStore_readBlock i, rfl, ?_⟩
    by_cases hi : i = 2
    · obtain rfl : p = 1 := by revert i p; decide
      subst hi
      have hne : (⟨(coinbaseTo (replicate 4 0) [0x51]).getHash countHash, 0⟩ : OutPoint) ≠
          ⟨(coinbaseTo (replicate 3 0) [0x51]).getHash countHash, 0⟩ := by decide
      have hnone : coinbaseUtxo countHash 1 (replicate 3 0) [0x51] (fun _ => none)
          ⟨(coinbaseTo (replicate 4 0) [0x51]).getHash countHash, 0⟩ = none :=
        coinbaseUtxo_of_ne hne
      exact connects_coinbaseBlock fun _ _ => hnone
    · obtain ⟨hi', rfl⟩ : i ≠ 0 ∧ p = 0 := by revert i p; decide
      have hheight : branchStore.nHeight i = 1 := by revert i; decide
      rw [hheight, branchUtxo, branchUtxo, if_neg hi', if_neg hi]
      exact connects_coinbaseBlock fun _ _ => rfl

theorem branchStore_pays (i : Fin 4) : BlockPays countEnv.params (branchStore.nHeight i)
      (coinbaseBlock (replicate (i + 2) 0) [0x51]) ⟨[]⟩ where
  count := by
    change 1 ≤ maxBlockWeight
    decide
  checked tx htx := by
    obtain rfl := mem_singleton.1 htx
    refine checkTransaction_eq_ok ?_
    fin_cases i <;> rfl
  pays := by
    refine ⟨_, [], 0, rfl, .nil, ?_⟩
    revert i
    decide

theorem branchStore_trackable : Trackable countEnv branchStore univ branchUtxo where
  tree := branchStore_connected
  params := ⟨.regtest, rfl⟩
  readable i _ := by rw [branchStore_readBlock]; rfl
  noRepeat i _ block hread := by
    rw [BlockStore.getHash_of_readBlock hread]
    clear hread
    revert i
    decide
  spendable i _ := by revert i; decide
  pays i _ p hp block undo hblock hundo := by
    obtain rfl := some.inj ((branchStore_readBlock i).symm.trans hblock)
    obtain rfl := some.inj hundo
    exact branchStore_pays i

theorem branchStore_onChain : branchStore.OnChain 0 1 ∧ branchStore.OnChain 1 2 :=
  ⟨⟨1, rfl⟩, ⟨1, rfl⟩⟩

theorem branchIndex_committed :
    ∃ x, Reachable countEnv branchStore univ x ∧ x.best = some 2 ∧ x.db.bestBlock = some 3 ∧
      Named branchStore x.db 0 ∧ Named branchStore x.db 1 := by
  have htree := branchStore_trackable
  obtain ⟨x₀, v₀, hexec₀, hx₀, hbest₀, hdb₀⟩ := tracks_start.processBlock htree (i := 0) trivial rfl
  have hreach₀ : Reachable countEnv branchStore univ x₀ :=
    Reachable.start.step (.append 0) ⟨trivial, rfl⟩ hexec₀
  obtain ⟨x₁, v₁, hexec₁, hx₁, hbest₁, hdb₁⟩ := hx₀.processBlock htree (i := 1) trivial hbest₀.symm
  have hreach₁ := hreach₀.step (.append 1) ⟨trivial, hbest₀.symm⟩ hexec₁
  obtain ⟨x₂, v₂, hexec₂, hx₂, hbest₂, hdb₂⟩ := hx₁.processBlock htree (i := 2) trivial hbest₁.symm
  have hreach₂ := hreach₁.step (.append 2) ⟨trivial, hbest₁.symm⟩ hexec₂
  have hcommit : commit branchStore (some 2) x₂ = { x₂ with db := { x₂.db with
      muhash := some x₂.memory.muhash, bestBlock := some 3 } } := by
    rw [commit.eq_def, hbest₂]
    rfl
  refine ⟨_, hreach₂.step (.commit (some 2)) trivial rfl, ?_⟩
  rw [hcommit]
  refine ⟨hbest₂, rfl, ⟨v₀, ?_⟩, v₁, ?_⟩
  · rw [hdb₂, hdb₁, hdb₀]
    exact readEntry_of_lawful lawful_unserPair (1, v₀)
  · rw [hdb₂, hdb₁]
    exact readEntry_of_lawful lawful_unserPair (2, v₁)

/-- There the index describes the UTXO set of a block of the branch, and a crash does no
harm. -/
theorem coinStats_of_branch : ∃ x, Reachable countEnv branchStore univ x ∧ x.best = some 2 ∧
      (∃ value, lookUpOne 2 1 x.db = some value ∧ Describes countEnv (branchUtxo 1) value) ∧
      ∃ x', exec countEnv branchStore x .crash = .ok x' := by
  obtain ⟨x, hreach, hbest, -⟩ := branchIndex_committed
  obtain ⟨hlook, hexec⟩ := coinStats_of_reachable countEnv branchStore univ branchUtxo
    branchStore_trackable x hreach
  exact ⟨x, hreach, hbest, hlook 2 hbest 1 branchStore_onChain.2, (hexec .crash trivial).2 trivial⟩

/-- **The index is stuck**: after a crash it is back at a branch which it cannot leave. -/
theorem branchIndex_stuck : Trackable countEnv branchStore univ branchUtxo ∧
    ∃ x, Reachable countEnv branchStore univ x ∧ x.best = some 2 ∧
      (Event.rewind 0).Allowed branchStore univ x ∧
      exec countEnv branchStore x (.rewind 0) = .error .prevEntryMissing := by
  have htree := branchStore_trackable
  obtain ⟨honChain, honChain'⟩ := branchStore_onChain
  have hallowed : branchStore.OnChain 0 2 := honChain.trans honChain'
  refine ⟨htree, ?_⟩
  obtain ⟨x, hreach, hbest, hcommitted, hnamed₀, hnamed₁⟩ := branchIndex_committed
  -- the rewind passes the first time
  have hpass : Passes branchStore x.db 0 2 := by
    rintro a - ha hne
    obtain rfl | ⟨p, ⟨⟩, ha⟩ := ha.eq_or_pprev
    · exact absurd rfl hne
    obtain rfl | ⟨p, ⟨⟩, ha⟩ := ha.eq_or_pprev
    · exact hnamed₁
    obtain rfl | ⟨p, hp, -⟩ := ha.eq_or_pprev
    · exact hnamed₀
    · cases hp
  obtain ⟨-, x₁, hexec₁, hx₁, hbest₁, -, hcommit₁⟩ | ⟨hno, -⟩ :=
    (hreach.tracks htree).rewind_cases htree hbest hallowed
  case inr => exact absurd hpass hno
  have hreach₁ := hreach.step (.rewind 0) ⟨2, hbest, hallowed⟩ hexec₁
  obtain ⟨x₂, v₃, hexec₂, hx₂, hbest₂, hdb₂⟩ := hx₁.processBlock htree (i := 3) trivial hbest₁.symm
  have hreach₂ := hreach₁.step (.append 3) ⟨trivial, hbest₁.symm⟩ hexec₂
  obtain ⟨x₃, hexec₃, hx₃, hdb₃, hbest₃⟩ := hx₂.init_spec htree
  have hreach₃ := hreach₂.step .crash trivial hexec₃
  have hbest₃ : x₃.best = some 2 := by
    rw [hbest₃, hdb₂, show (x₁.db.put _ _).bestBlock = x₁.db.bestBlock from rfl, hcommit₁.2,
      hcommitted]
    rfl
  refine ⟨x₃, hreach₃, hbest₃, ⟨2, hbest₃, hallowed⟩, ?_⟩
  obtain ⟨hpass₃, -⟩ | ⟨-, hfail⟩ := hx₃.rewind_cases htree hbest₃ hallowed
  · obtain ⟨value, hread⟩ := hpass₃ 1 honChain honChain' (by decide)
    rw [hdb₃, hdb₂] at hread
    have hread' := (readEntry_of_lawful lawful_unserPair (4, v₃)).symm.trans hread
    have hhash : (4 : Uint256) = 2 := congrArg Prod.fst (some.inj hread')
    exact absurd hhash (by decide)
  · exact hfail

end CoinStatsIndex

end Quarlcoin
