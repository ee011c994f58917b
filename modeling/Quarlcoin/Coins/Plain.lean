import Quarlcoin.Coins.Overlay
/-!
# The prefetching overlay — against a plain cache

If a lookup is given the coin of the view below, whoever looked it up, the log of the main
thread is one a plain cache would have left (`Agrees`). Only the best block of a cache that
was never told one may differ: `Flush` looks it up for a warning, and so sets it.
-/

namespace Quarlcoin

open Arith Simulation List

namespace Coins

/-! ## Operations that do not look at the best block -/

namespace CoinsViewCache

variable (c : CoinsViewCache) (hash : Uint256) (o : OutPoint)

@[simp] theorem find_setBestBlock : (c.setBestBlock hash).find = c.find := rfl

theorem fetchCoin_setBestBlock {β : Type} (b : β) (answer : Option Coin) :
    (c.setBestBlock hash).fetchCoin o b (.ok (b, answer)) =
      (c.fetchCoin o b (.ok (b, answer))).map fun r => (r.1.setBestBlock hash, r.2) := by
  simp only [fetchCoin, find_setBestBlock]
  cases c.find o with
  | some e => rfl
  | none =>
    cases answer with
    | none => rfl
    | some coin =>
      simp only
      split <;> rfl

theorem spendCoin_setBestBlock {β : Type} (b : β) (answer : Option Coin) :
    (c.setBestBlock hash).spendCoin o b (.ok (b, answer)) =
      (c.spendCoin o b (.ok (b, answer))).map fun r => (r.1.setBestBlock hash, r.2) := by
  simp only [spendCoin, fetchCoin_setBestBlock]
  cases c.fetchCoin o b (.ok (b, answer)) with
  | error f => rfl
  | ok r =>
    obtain ⟨c', b', it⟩ := r
    cases it with
    | none => rfl
    | some e =>
      simp only [Except.map]
      split <;> rfl

theorem addCoin_setBestBlock (coin : Coin) (possibleOverwrite : Bool) :
    (c.setBestBlock hash).addCoin o coin possibleOverwrite =
      (c.addCoin o coin possibleOverwrite).map fun c => c.setBestBlock hash := by
  unfold addCoin
  rw [find_setBestBlock]
  generalize c.find o = found
  by_cases hspent : coin.isSpent = true
  · rw [if_pos hspent, if_pos hspent]
    rfl
  rw [if_neg hspent, if_neg hspent]
  by_cases hun : coin.out.scriptPubKey.isUnspendable = true
  · rw [if_pos hun, if_pos hun]
    rfl
  rw [if_neg hun, if_neg hun]
  by_cases hover : (!possibleOverwrite && !(found.getD {}).coin.isSpent) = true
  · simp only [hover]
    rfl
  · simp only [hover]
    cases !possibleOverwrite && !(found.getD {}).dirty <;> cases found <;> rfl

theorem uncache_setBestBlock :
    (c.setBestBlock hash).uncache o = (c.uncache o).setBestBlock hash := by
  simp only [uncache, find_setBestBlock]
  cases c.find o with
  | none => rfl
  | some e =>
    simp only
    split <;> rfl

end CoinsViewCache

namespace Overlay

/-- A change of the cache that leaves its best block alone. -/
def Commutes (f : CoinsViewCache → CoinsViewCache × Result) : Prop :=
  ∀ c hash, f (c.setBestBlock hash) = ((f c).1.setBestBlock hash, (f c).2)

theorem runFetch_commutes (answer : Option Coin) (op : FetchOp) :
    Commutes fun c => runFetch c answer op := by
  intro c hash
  cases op with
  | getCoin o | accessCoin o | haveCoin o =>
    simp only [runFetch, CoinsViewCache.fetchCoin_setBestBlock]
    cases c.fetchCoin o () (.ok ((), answer)) <;> rfl
  | spendCoin o =>
    simp only [runFetch, CoinsViewCache.spendCoin_setBestBlock]
    cases c.spendCoin o () (.ok ((), answer)) <;> rfl

theorem runFetch_of_find {c : CoinsViewCache} {op : FetchOp} {e : CoinsCacheEntry}
    (h : c.find op.outpoint = some e) (answer answer' : Option Coin) :
    runFetch c answer op = runFetch c answer' op := by
  cases op <;>
    simp only [FetchOp.outpoint] at h <;>
    simp only [runFetch, CoinsViewCache.spendCoin, CoinsViewCache.fetchCoin, h]

theorem runLocal_commutes (base : CoinMap) {op : MainOp} (hop : ∀ hash, op ≠ .setBestBlock hash) :
    Commutes fun c => runLocal c base op := by
  intro c hash
  cases op with
  | setBestBlock hash => exact absurd rfl (hop hash)
  | addCoin o coin possibleOverwrite =>
    simp only [runLocal, CoinsViewCache.addCoin_setBestBlock]
    cases c.addCoin o coin possibleOverwrite <;> rfl
  | uncache o => simp only [runLocal, CoinsViewCache.uncache_setBestBlock]
  | peekCoin | fetch | startFetching | stop => rfl

/-! ## The overlay against a plain cache -/

/-- `q` has the coins of `p`, in the cache and below, and its best block if
that was ever set. -/
structure Tracks (p q : Plain) : Prop where
  base : q.base = p.base
  cache : q.cache = p.cache.setBestBlock q.cache.blockHash
  hash : p.cache.blockHash ≠ 0 → q.cache.blockHash = p.cache.blockHash

namespace Tracks

variable {p q : Plain} (h : Tracks p q)
include h

theorem change {f : CoinsViewCache → CoinsViewCache × Result} (hf : Commutes f) :
    Tracks { p with cache := (f p.cache).1 } { q with cache := (f q.cache).1 } ∧
      (f q.cache).2 = (f p.cache).2 := by
  have hkeep : ∀ c, (f c).1.blockHash = c.blockHash := by
    intro c
    have := hf c c.blockHash
    exact congrArg (fun r => r.1.blockHash) this
  have hq : f q.cache = ((f p.cache).1.setBestBlock q.cache.blockHash, (f p.cache).2) := by
    rw [← hf, ← h.cache]
  refine ⟨⟨h.base, ?_, ?_⟩, by rw [hq]⟩
  · rw [hkeep, hq]
  · rw [hkeep, hkeep]
    exact h.hash

theorem runLocal (op : MainOp) : Tracks { p with cache := (runLocal p.cache p.base op).1 }
        { q with cache := (Overlay.runLocal q.cache q.base op).1 } ∧
      (Overlay.runLocal q.cache q.base op).2 = (Overlay.runLocal p.cache p.base op).2 := by
  by_cases hop : ∃ hash, op = .setBestBlock hash
  · obtain ⟨hash, rfl⟩ := hop
    refine ⟨⟨h.base, ?_, fun _ => rfl⟩, rfl⟩
    rw [h.cache]
    rfl
  · have hrun : Overlay.runLocal q.cache q.base op = Overlay.runLocal q.cache p.base op := by
      rw [h.base]
    rw [hrun]
    exact h.change (runLocal_commutes p.base fun hash heq => hop ⟨hash, heq⟩)

theorem runStop (commit : Commit) (op : StopOp) :
    Tracks (runStop commit p op).1 (Overlay.runStop commit q op).1 ∧
      (Overlay.runStop commit q op).2 = (Overlay.runStop commit p op).2 := by
  have hentries : flaggedEntries q.cache = flaggedEntries p.cache := by
    rw [h.cache]
    rfl
  cases op with
  | flush =>
    refine ⟨⟨?_, ?_, h.hash⟩, ?_⟩
    · simp only [Overlay.runStop, hentries, h.base]
    · show afterFlush q.cache = (afterFlush p.cache).setBestBlock q.cache.blockHash
      have hflush : ∀ (c : CoinsViewCache) (hash : Uint256),
          afterFlush (c.setBestBlock hash) = (afterFlush c).setBestBlock hash := fun _ _ => rfl
      rw [← hflush, ← h.cache]
    · simp only [Overlay.runStop, hentries]
  | reset =>
    refine ⟨⟨h.base, ?_, fun hne => absurd rfl hne⟩, rfl⟩
    rfl

theorem setBestBlock (hzero : q.cache.blockHash = 0) (hash : Uint256) :
    Tracks p { q with cache := q.cache.setBestBlock hash } := by
  refine ⟨h.base, ?_, ?_⟩
  · rw [h.cache]
    rfl
  · intro hne
    exact absurd ((h.hash hne).symm.trans hzero) hne

end Tracks

/-! ## The log of the main thread -/

section

variable (commit : Commit) (base₀ : CoinMap) (hash₀ : Uint256)

/-- A plain cache run through the operations of a log. -/
def plainRun (log : List (MainOp × Result)) : Plain × List Result :=
  specAll (plainStep commit) { base := base₀, baseHash := hash₀ } (log.map Prod.fst)

/-- The results in the log are those of a plain cache, and so are the coins. -/
structure Agrees (s : State) : Prop where
  results : (plainRun commit base₀ hash₀ s.log).2 = s.log.map Prod.snd
  tracks : Tracks (plainRun commit base₀ hash₀ s.log).1 s.toPlain

end

variable {commit : Commit} {base₀ : CoinMap} {hash₀ : Uint256} {s s' : State}

namespace Agrees

section

variable (h : Agrees commit base₀ hash₀ s)
include h

theorem append {op : MainOp} {r : Result} (hlog : s'.log = s.log ++ [(op, r)])
    (hr : r = (plainStep commit (plainRun commit base₀ hash₀ s.log).1 op).2)
    (ht : Tracks (plainStep commit (plainRun commit base₀ hash₀ s.log).1 op).1 s'.toPlain) :
    Agrees commit base₀ hash₀ s' := by
  have hrun : plainRun commit base₀ hash₀ s'.log =
      ((plainStep commit (plainRun commit base₀ hash₀ s.log).1 op).1,
        (plainRun commit base₀ hash₀ s.log).2 ++
          [(plainStep commit (plainRun commit base₀ hash₀ s.log).1 op).2]) := by
    rw [plainRun, hlog, map_append, map_cons, map_nil, specAll_concat]
    rfl
  refine ⟨?_, by rw [hrun]; exact ht⟩
  rw [hrun, hlog, h.results, map_append, hr]
  rfl

theorem congr (hlog : s'.log = s.log)
    (hplain : s'.toPlain = s.toPlain) : Agrees commit base₀ hash₀ s' := by
  refine ⟨by rw [hlog]; exact h.results, ?_⟩
  rw [hlog, hplain]
  exact h.tracks

/-- **A lookup**, if it was given the coin of the view below. -/
theorem fetch {op : FetchOp} {answer : Option Coin}
    (hanswer : s.cache.find op.outpoint = none → answer = s.base op.outpoint) :
    Agrees commit base₀ hash₀ (s.complete (.fetch op) (runFetch s.cache answer op)) := by
  have hrun : runFetch s.cache answer op = runFetch s.cache (s.base op.outpoint) op := by
    cases hfind : s.cache.find op.outpoint with
    | none => rw [hanswer hfind]
    | some e => exact runFetch_of_find hfind _ _
  obtain ⟨ht, hr⟩ := h.tracks.change
    (runFetch_commutes ((plainRun commit base₀ hash₀ s.log).1.base op.outpoint) op)
  rw [hrun, h.tracks.base]
  exact h.append rfl hr ht

/-- **Any other operation** that neither fetches nor stops. -/
theorem local_ {op : MainOp} (hop : ∀ p, plainStep commit p op =
      ({ p with cache := (runLocal p.cache p.base op).1 }, (runLocal p.cache p.base op).2)) :
    Agrees commit base₀ hash₀ (s.complete op (runLocal s.cache s.base op)) := by
  obtain ⟨ht, hr⟩ := h.tracks.runLocal op
  refine h.append rfl ?_ ?_
  · rw [hop]
    exact hr
  · rw [hop]
    exact ht

/-- **A flush or a reset.** -/
theorem finishStop (op : StopOp) : Agrees commit base₀ hash₀ (s.finishStop commit op) := by
  obtain ⟨ht, hr⟩ := h.tracks.runStop commit op
  exact h.append rfl hr ht

theorem warnUnconsumed (op : StopOp) :
    Agrees commit base₀ hash₀ { s with cache := s.warnUnconsumed op } := by
  refine ⟨h.results, ?_⟩
  cases op with
  | reset => exact h.tracks
  | flush =>
    rw [State.warnUnconsumed]
    split_ifs with hc
    · exact h.tracks.setBestBlock hc.2 s.baseHash
    · exact h.tracks

end

end Agrees

end Overlay

end Coins

end Quarlcoin
