import Quarlcoin.Common.Simulation
import Quarlcoin.Coins.Shadow
/-!
# The coins cache — a stack of caches is a stack of maps

The specification: one map from outpoints to coins per layer. A layer with another on top of
it is not written to, except from there. Under that rule every run of the stack gives the
answers of the maps (`stack_refines_maps`).
-/

namespace Quarlcoin

open Arith Simulation List

namespace Coins

abbrev CoinMap : Type := OutPoint → Option Coin

/-- The operations of a cache. -/
inductive Op where
  | addCoin (o : OutPoint) (coin : Coin) (possibleOverwrite : Bool)
  | spendCoin (o : OutPoint)
  | reset
  | accessCoin (o : OutPoint)
  | getCoin (o : OutPoint)
  | haveCoin (o : OutPoint)
  | peekCoin (o : OutPoint)
  | uncache (o : OutPoint)
  | sync
  | flush

/-- An operation that changes the map of the layer it is called on. -/
def Op.isWrite : Op → Bool
  | .addCoin .. | .spendCoin _ | .reset => true
  | _ => false

/-- An operation and the number of layers above the one it is called on. -/
structure Command where
  depth : ℕ
  op : Op

/-- What a lookup returns. -/
inductive Output where
  | done
  | coin (found : Option Coin)
  | accessed (found : Coin)
  | present (found : Bool)
  deriving DecidableEq

namespace CoinsView

/-- An operation on the topmost layer. -/
def exec (v : CoinsView) : Op → Except Fault (CoinsView × Output)
  | .addCoin o coin possibleOverwrite =>
    (v.addCoin o coin possibleOverwrite).map fun v => (v, .done)
  | .spendCoin o => (v.spendCoin o).map fun r => (r.1, .done)
  | .reset => v.reset.map fun v => (v, .done)
  | .accessCoin o => (v.accessCoin o).map fun r => (r.1, .accessed r.2)
  | .getCoin o => (v.getCoin o).map fun r => (r.1, .coin r.2)
  | .haveCoin o => (v.haveCoin o).map fun r => (r.1, .present r.2)
  | .peekCoin o => .ok (v, .coin (v.peekCoin o))
  | .uncache o => (v.uncache o).map fun v => (v, .done)
  | .sync => v.sync.map fun v => (v, .done)
  | .flush => v.flush.map fun v => (v, .done)

/-- An operation on the layer that has `depth` others above it. -/
def execAt : ℕ → Op → CoinsView → Except Fault (CoinsView × Output)
  | 0, op, v => v.exec op
  | _ + 1, _, base .. => .error .noSuchLayer
  | depth + 1, op, cache c below => (execAt depth op below).map fun r => (cache c r.1, r.2)

def step (v : CoinsView) (cmd : Command) : Except Fault (CoinsView × Output) :=
  v.execAt cmd.depth cmd.op

/-- `n` caches, as they are constructed, over a map of coins. -/
def stack (coins : UtxoSet) (hash : Uint256) : ℕ → CoinsView
  | 0 => base coins hash
  | n + 1 => cache {} (stack coins hash n)

/-- A fresh entry means that the map below has no coin there, on every layer. -/
def FreshIsNew : CoinsView → Prop
  | base .. => True
  | cache c below =>
    (∀ o e, c.find o = some e → e.fresh = true → below.peekCoin o = none) ∧ below.FreshIsNew

end CoinsView

/-! ## The maps -/

namespace Maps

/-- An operation on the topmost map. -/
def exec : List CoinMap → Op → List CoinMap × Output
  | m :: rest, .addCoin o coin _ =>
    if coin.out.scriptPubKey.isUnspendable then (m :: rest, .done)
    else (Function.update m o (some coin) :: rest, .done)
  | m :: rest, .spendCoin o => (Function.update m o none :: rest, .done)
  | _ :: below :: rest, .reset => (below :: below :: rest, .done)
  | m :: rest, .accessCoin o => (m :: rest, .accessed ((m o).getD {}))
  | m :: rest, .getCoin o => (m :: rest, .coin (m o))
  | m :: rest, .haveCoin o => (m :: rest, .present (m o).isSome)
  | m :: rest, .peekCoin o => (m :: rest, .coin (m o))
  | m :: _ :: rest, .sync => (m :: m :: rest, .done)
  | m :: _ :: rest, .flush => (m :: m :: rest, .done)
  | maps, _ => (maps, .done)

/-- An operation on the map that has `depth` others above it. -/
def execAt : ℕ → Op → List CoinMap → List CoinMap × Output
  | 0, op, maps => exec maps op
  | _ + 1, _, [] => ([], .done)
  | depth + 1, op, m :: rest => (m :: (execAt depth op rest).1, (execAt depth op rest).2)

variable (maps : List CoinMap) (cmd : Command)

def step : List CoinMap × Output :=
  execAt cmd.depth cmd.op maps

/-- `AddCoin` is called with an unspent coin, and told the truth about what it
may overwrite. -/
def AddOk : Op → Prop
  | .addCoin o coin possibleOverwrite =>
    coin.isSpent = false ∧ (possibleOverwrite = false → ∀ m ∈ maps.head?, m o = none)
  | _ => True

/-- The command is for one of the caches, for the topmost one if it writes. -/
structure Legal : Prop where
  isCache : cmd.depth + 1 < maps.length
  onTop : cmd.op.isWrite = true → cmd.depth = 0
  addOk : AddOk maps cmd.op

theorem exec_head {m below : CoinMap} {rest : List CoinMap} {op : Op}
    (h : op.isWrite = false) : ∃ rest', (exec (m :: below :: rest) op).1 = m :: rest' := by
  cases op with
  | addCoin | spendCoin | reset => cases h
  | sync | flush => exact ⟨m :: rest, rfl⟩
  | accessCoin | getCoin | haveCoin | peekCoin | uncache => exact ⟨below :: rest, rfl⟩

theorem execAt_head {depth : ℕ} {m : CoinMap} {rest : List CoinMap} {op : Op}
    (h : op.isWrite = false) (hdepth : depth + 1 < (m :: rest).length) :
    ∃ rest', (execAt depth op (m :: rest)).1 = m :: rest' := by
  cases depth with
  | zero =>
    cases rest with
    | nil => simp at hdepth
    | cons below rest => exact exec_head h
  | succ depth => exact ⟨_, rfl⟩

theorem addOk_of_not_isWrite {maps : List CoinMap} {op : Op} (h : op.isWrite = false) :
    AddOk maps op := by
  cases op with
  | addCoin => cases h
  | _ => trivial

end Maps

/-! ## The refinement -/

namespace CoinsView

/-- The stack stands for these maps. -/
def StandsFor (v : CoinsView) (maps : List CoinMap) : Prop := v.Coherent ∧ v.layers = maps

variable {c : CoinsViewCache} {below v : CoinsView} {op : Op}

/-- **An operation on the topmost cache** does to the maps what it should, and
returns what they say. -/
theorem exec_matches (h : (cache c below).Coherent) (hadd : Maps.AddOk (cache c below).layers op) :
    ∃ v', (cache c below).exec op = .ok (v', (Maps.exec (cache c below).layers op).2) ∧
      v'.StandsFor (Maps.exec (cache c below).layers op).1 := by
  have hlayers : (cache c below).layers =
      (cache c below).peekCoin :: below.peekCoin :: below.layers.tail := by
    rw [layers, ← layers_eq_cons]
  cases op with
  | addCoin o coin possibleOverwrite =>
    obtain ⟨hspent, hover⟩ := hadd
    by_cases hun : coin.out.scriptPubKey.isUnspendable = true
    · refine ⟨cache c below, ?_, h, ?_⟩
      · simp [exec, addCoin, CoinsViewCache.addCoin, hspent, hun, Maps.exec, layers, Except.map]
      · simp [Maps.exec, layers, hun]
    rw [Bool.not_eq_true] at hun
    obtain ⟨c', hc', hcoh, hl⟩ := addCoin_spec h hspent hun
      (fun hpo => hover hpo _ rfl)
    refine ⟨cache c' below, ?_, hcoh, ?_⟩
    · simp [exec, addCoin, hc', Maps.exec, layers, hun, Except.map]
    · rw [hl]
      simp [Maps.exec, hun, layers]
  | spendCoin o =>
    obtain ⟨v', moved, hv', hcoh, hl, -⟩ := spendCoin_spec h
    exact ⟨v', by rw [exec, hv']; rfl, hcoh, hl⟩
  | reset =>
    obtain ⟨hcoh, hpeek⟩ := coherent_of_empty (c := c.reset) h.2.2
      (fun o => Finmap.lookup_empty o) rfl rfl
    refine ⟨cache c.reset below, by rw [hlayers]; rfl, hcoh, ?_⟩
    rw [hlayers, Maps.exec, layers, hpeek, ← layers_eq_cons]
  | accessCoin o =>
    obtain ⟨v', hv', hlook⟩ := accessCoin_spec h
    exact ⟨v', by rw [exec, hv']; rfl, hlook.coherent, hlook.layers_eq⟩
  | getCoin o =>
    obtain ⟨v', hv', hlook, -⟩ := getCoin_spec h
    exact ⟨v', by rw [exec, hv']; rfl, hlook.coherent, hlook.layers_eq⟩
  | haveCoin o =>
    obtain ⟨v', hv', hlook⟩ := haveCoin_spec h
    exact ⟨v', by rw [exec, hv']; rfl, hlook.coherent, hlook.layers_eq⟩
  | peekCoin o => exact ⟨cache c below, rfl, h, rfl⟩
  | uncache o =>
    have hlook := uncache_spec (o := o) h
    exact ⟨cache (c.uncache o) below, by rw [hlayers]; rfl, hlook.coherent, hlook.layers_eq⟩
  | sync =>
    obtain ⟨v', hv', hcoh, hl⟩ := sync_spec h
    exact ⟨v', by rw [exec, hv', hlayers]; rfl, hcoh, by rw [hlayers]; exact hl⟩
  | flush =>
    obtain ⟨v', hv', hcoh, hl⟩ := flush_spec h
    exact ⟨v', by rw [exec, hv', hlayers]; rfl, hcoh, by rw [hlayers]; exact hl⟩

/-- **So does an operation on a cache further down**: it leaves the map of its
own layer alone, and with it everything above. -/
theorem execAt_matches : ∀ (depth : ℕ) (v : CoinsView), v.Coherent →
    depth + 1 < v.layers.length → (op.isWrite = true → depth = 0) → Maps.AddOk v.layers op →
    ∃ v', v.execAt depth op = .ok (v', (Maps.execAt depth op v.layers).2) ∧
      v'.StandsFor (Maps.execAt depth op v.layers).1 := by
  intro depth
  induction depth with
  | zero =>
    intro v h hdepth _ hadd
    cases v with
    | base => simp [layers] at hdepth
    | cache c below => exact exec_matches h hadd
  | succ depth ih =>
    intro v h hdepth htop _
    have hread : op.isWrite = false := by
      by_contra hne
      exact absurd (htop (by simpa using hne)) (Nat.succ_ne_zero depth)
    cases v with
    | base => simp [layers] at hdepth
    | cache c below =>
      have hdepth' : depth + 1 < below.layers.length := by simpa [layers] using hdepth
      obtain ⟨below', hbelow', hcoh, hl⟩ := ih below h.2.2 hdepth'
        (fun hw => by rw [hread] at hw; cases hw) (Maps.addOk_of_not_isWrite hread)
      have hpeek : below'.peekCoin = below.peekCoin := by
        rw [layers_eq_cons below] at hdepth' hl
        obtain ⟨rest', hrest'⟩ := Maps.execAt_head hread hdepth'
        rw [hrest', layers_eq_cons below'] at hl
        exact (cons.inj hl).1
      obtain ⟨hcoh', hpeek'⟩ := h.replace hcoh hpeek
      refine ⟨cache c below', by rw [execAt, hbelow']; rfl, hcoh', ?_⟩
      rw [layers, hpeek', hl]
      rfl

/-- **One command.** -/
theorem step_matches (v : CoinsView) (maps : List CoinMap) (cmd : Command)
    (h : v.StandsFor maps) (hlegal : Maps.Legal maps cmd) :
    Matches StandsFor step Maps.step v maps cmd := by
  obtain ⟨hcoh, rfl⟩ := h
  exact execAt_matches cmd.depth v hcoh hlegal.isCache hlegal.onTop hlegal.addOk

theorem Coherent.freshIsNew (h : v.Coherent) : v.FreshIsNew := by
  induction v with
  | base => trivial
  | cache c below ih =>
    refine ⟨?_, ih h.2.2⟩
    intro o e he hfresh
    exact ((h.2.1 o e he).of_fresh hfresh).1

theorem stack_standsFor {coins : UtxoSet} (hash : Uint256)
    (hcoins : ∀ o coin, coins.lookup o = some coin → coin.isSpent = false) (n : ℕ) :
    (stack coins hash n).StandsFor (replicate (n + 1) fun o => coins.lookup o) := by
  induction n with
  | zero => exact ⟨hcoins, rfl⟩
  | succ n ih =>
    obtain ⟨hcoh, hpeek⟩ := coherent_of_empty (c := {}) ih.1
      (fun o => Finmap.lookup_empty o) rfl rfl
    refine ⟨hcoh, ?_⟩
    have hl := ih.2
    have hp : (stack coins hash n).peekCoin = fun o => coins.lookup o := by
      rw [layers_eq_cons] at hl
      exact (cons.inj hl).1
    rw [stack, layers, hpeek, hl, hp, ← replicate_succ]

/-- **Every run of a stack of caches is a run of its maps.** No command faults, every lookup
returns what the layer's map has, and a fresh entry is one the map below knows nothing of. -/
theorem stack_refines_maps (coins : UtxoSet) (hash : Uint256)
    (hcoins : ∀ o coin, coins.lookup o = some coin → coin.isSpent = false) (n : ℕ)
    (cmds : List Command)
    (hlegal : AllLegal Maps.Legal Maps.step (replicate (n + 1) fun o => coins.lookup o) cmds) :
    ∃ v, runAll step (stack coins hash n) cmds =
        .ok (v, (specAll Maps.step (replicate (n + 1) fun o => coins.lookup o) cmds).2) ∧
      v.layers = (specAll Maps.step (replicate (n + 1) fun o => coins.lookup o) cmds).1 ∧
      v.FreshIsNew := by
  obtain ⟨v, hrun, hcoh, hl⟩ := runAll_of_matches step_matches cmds (stack coins hash n) _
    (stack_standsFor hash hcoins n) hlegal
  exact ⟨v, hrun, hl, hcoh.freshIsNew⟩

/-- An output that anyone may spend. -/
def someCoin : Coin := { out := { nValue := 5000000000, scriptPubKey := [0x51] }, nHeight := 7 }

/-- A coin is added to the upper of two caches, written to the lower one, spent above, written
again, and added once more. -/
def someCommands : List Command :=
  [⟨0, .addCoin ⟨1, 0⟩ someCoin false⟩, ⟨0, .sync⟩, ⟨0, .spendCoin ⟨1, 0⟩⟩, ⟨1, .getCoin ⟨1, 0⟩⟩,
    ⟨0, .haveCoin ⟨1, 0⟩⟩, ⟨0, .flush⟩, ⟨1, .peekCoin ⟨1, 0⟩⟩, ⟨0, .addCoin ⟨1, 0⟩ someCoin false⟩,
    ⟨0, .flush⟩, ⟨1, .sync⟩, ⟨1, .uncache ⟨1, 0⟩⟩, ⟨0, .accessCoin ⟨1, 0⟩⟩]

theorem someCommands_legal : AllLegal Maps.Legal Maps.step
      (replicate 3 fun o => (∅ : UtxoSet).lookup o) someCommands := by
  have hread : ∀ (maps : List CoinMap) (cmd : Command), cmd.depth + 1 < maps.length →
      cmd.op.isWrite = false → Maps.Legal maps cmd := by
    intro maps cmd hdepth hop
    exact ⟨hdepth, by simp [hop], Maps.addOk_of_not_isWrite hop⟩
  have hadd : ∀ maps : List CoinMap, 1 < maps.length → (∀ m ∈ maps.head?, m ⟨1, 0⟩ = none) →
      Maps.Legal maps ⟨0, .addCoin ⟨1, 0⟩ someCoin false⟩ :=
    fun maps hdepth hnone => ⟨hdepth, fun _ => rfl, rfl, fun _ => hnone⟩
  refine ⟨hadd _ (by decide) (by simp), hread _ _ (by decide) rfl,
    ⟨by decide, fun _ => rfl, trivial⟩, hread _ _ (by decide) rfl, hread _ _ (by decide) rfl,
    hread _ _ (by decide) rfl, hread _ _ (by decide) rfl, hadd _ (by decide) ?_,
    hread _ _ (by decide) rfl, hread _ _ (by decide) rfl, hread _ _ (by decide) rfl,
    hread _ _ (by decide) rfl, trivial⟩
  rintro m ⟨rfl⟩
  rfl

theorem someCommands_refine : AllLegal Maps.Legal Maps.step
        (replicate 3 fun o => (∅ : UtxoSet).lookup o) someCommands ∧
      ∃ v, runAll step (stack ∅ 0 2) someCommands =
          .ok (v, [.done, .done, .done, .coin (some someCoin), .present false, .done, .coin none,
            .done, .done, .done, .done, .accessed someCoin]) ∧ v.FreshIsNew := by
  refine ⟨someCommands_legal, ?_⟩
  obtain ⟨v, hrun, -, hfresh⟩ := stack_refines_maps ∅ 0 (by simp) 2 someCommands someCommands_legal
  exact ⟨v, hrun, hfresh⟩

end CoinsView

end Coins

end Quarlcoin
