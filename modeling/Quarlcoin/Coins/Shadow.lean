import Quarlcoin.Coins.Coherent
/-!
# The coins cache — coins that lie under others

`AddCoin` marks an entry fresh because its caller vouches that there is no coin below. A
block that is exempt from the check for overwritten coins breaks that promise: the new coin
hides the old one, until it is spent. `shadow` is the map of the coins hidden in this way,
and every operation updates it together with the map that is seen.
-/

namespace Quarlcoin

open Arith Function Option Prod Except Or

namespace Coins

open CoinsViewCache (fetched spentEntry addedEntry writtenEntry cleanedEntry)

/-- An entry over a view that has `below` at its outpoint, fresh or not. -/
structure SoundEntry (below : Option Coin) (e : CoinsCacheEntry) : Prop where
  of_clean : e.dirty = false → below = some e.coin ∧ e.coin.isSpent = false
  of_fresh : e.fresh = true → e.coin.isSpent = false
  of_spent : e.coin.isSpent = true → e.coin = {}

/-- The coin that is seen again once the entry is spent. -/
def shadowOver (found : Option CoinsCacheEntry) (below : Option Coin) : Option Coin :=
  match found with
  | some e => if e.fresh then below else none
  | none => none

theorem EntryOk.sound {below : Option Coin} {e : CoinsCacheEntry} (h : EntryOk below e) :
    SoundEntry below e :=
  ⟨h.of_clean, fun hfresh => (h.of_fresh hfresh).2, h.of_spent⟩

/-! ## One entry -/

section

variable {found : Option CoinsCacheEntry} {below : Option Coin} {coin : Coin}
  {possibleOverwrite : Bool}

theorem SoundEntry.of_answer (hfound : ∀ e, found = some e → SoundEntry below e)
    (hanswer : ∀ coin, below = some coin → coin.isSpent = false) :
    ∀ e, fetched found below = some e → SoundEntry below e := by
  intro e he
  cases found with
  | some e' => exact hfound e (by simpa [fetched] using he)
  | none =>
    simp only [fetched, none_or, map_eq_some_iff] at he
    obtain ⟨coin, rfl, rfl⟩ := he
    have hs := hanswer coin rfl
    exact ⟨fun _ => ⟨rfl, hs⟩, by simp, by simp [hs]⟩

theorem shadowOver_fetched (found : Option CoinsCacheEntry) (below : Option Coin) :
    shadowOver (fetched found below) below = shadowOver found below := by
  cases found with
  | some e => rfl
  | none => cases below <;> rfl

theorem SoundEntry.added (hspent : coin.isSpent = false) :
    SoundEntry below (addedEntry found coin possibleOverwrite) where
  of_clean := by
    intro hclean
    cases hclean
  of_fresh _ := hspent
  of_spent := by
    intro hs
    rw [addedEntry, hspent] at hs
    cases hs

theorem shadowOver_addedEntry (coin : Coin) (hfound : ∀ e, found = some e → SoundEntry below e)
    (hover : possibleOverwrite = false → (found.getD {}).coin.isSpent = true) :
    shadowOver (some (addedEntry found coin possibleOverwrite)) below = shadowOver found below ∨
      possibleOverwrite = false ∧ shadowOver found below = none ∧
        shadowOver (some (addedEntry found coin possibleOverwrite)) below =
          valueOver found below := by
  cases found with
  | none =>
    cases possibleOverwrite with
    | true => exact inl rfl
    | false => exact inr ⟨rfl, rfl, rfl⟩
  | some e =>
    left
    have he := hfound e rfl
    have hkeep : (!possibleOverwrite && !e.dirty) = false := by
      cases hpo : possibleOverwrite with
      | true => rfl
      | false =>
        -- the entry is spent, and a clean one is not
        have hs : e.coin.isSpent = true := hover hpo
        cases hd : e.dirty with
        | true => rfl
        | false =>
          rw [(he.of_clean hd).2] at hs
          cases hs
    simp only [shadowOver, addedEntry, getD_some, hkeep, Bool.or_false]

theorem SoundEntry.of_spend {e : CoinsCacheEntry} :
    (∀ e', spentEntry e = some e' → SoundEntry below e') ∧
      valueOver (spentEntry e) below = shadowOver (some e) below ∧
      shadowOver (spentEntry e) below = none := by
  cases hfresh : e.fresh with
  | true =>
    rw [spentEntry, if_pos hfresh]
    exact ⟨by simp, by simp [shadowOver, valueOver, hfresh], rfl⟩
  | false =>
    rw [spentEntry, if_neg (by simp [hfresh])]
    have hnone : shadowOver (some e) below = none := by simp [shadowOver, hfresh]
    refine ⟨?_, hnone.symm, rfl⟩
    rintro e' ⟨rfl⟩
    exact ⟨by simp, by simp, fun _ => rfl⟩

end

namespace CoinsView

variable {c c' : CoinsViewCache} {below below' v v' : CoinsView} {o x : OutPoint} {coin : Coin}

/-- Like `Coherent`, but a fresh entry of the topmost cache may hide a coin. -/
def Sound : CoinsView → Prop
  | base coins hash => (base coins hash).Coherent
  | cache c below =>
    c.Tracked ∧ (∀ o e, c.find o = some e → SoundEntry (below.peekCoin o) e) ∧ below.Coherent

/-- The coins the topmost cache hides. -/
def shadow : CoinsView → OutPoint → Option Coin
  | base .., _ => none
  | cache c below, o => shadowOver (c.find o) (below.peekCoin o)

/-- The topmost cache alone decides what is seen. -/
def Decided : CoinsView → OutPoint → Prop
  | base .., _ => False
  | cache c below, o => (c.find o).isSome ∨ below.peekCoin o = none

def IsCache : CoinsView → Prop
  | base .. => False
  | cache .. => True

/-- `GetBestBlock`, without what it keeps. -/
def bestBlock (v : CoinsView) : Uint256 := v.getBestBlock.2

theorem Coherent.sound (h : v.Coherent) : v.Sound := by
  cases v with
  | base coins hash => exact h
  | cache c below => exact ⟨h.1, fun o e he => (h.2.1 o e he).sound, h.2.2⟩

/-- **A coherent stack hides nothing.** -/
theorem Coherent.shadow_eq (h : v.Coherent) : v.shadow = fun _ => none := by
  funext o
  cases v with
  | base coins hash => rfl
  | cache c below =>
    rw [shadow]
    cases hfind : c.find o with
    | none => rfl
    | some e =>
      cases hfresh : e.fresh with
      | false => simp [shadowOver, hfresh]
      | true => simp [shadowOver, ((h.2.1 o e hfind).of_fresh hfresh).1]

/-- **A sound stack that hides nothing is coherent.** -/
theorem Sound.coherent (h : v.Sound) (hshadow : v.shadow = fun _ => none) : v.Coherent := by
  cases v with
  | base coins hash => exact h
  | cache c below =>
    refine ⟨h.1, fun o e he => ⟨(h.2.1 o e he).of_clean, fun hfresh => ?_,
      (h.2.1 o e he).of_spent⟩, h.2.2⟩
    have hnone := congrFun hshadow o
    rw [shadow, he, shadowOver, if_pos hfresh] at hnone
    exact ⟨hnone, (h.2.1 o e he).of_fresh hfresh⟩

theorem decided_of_peekCoin (hpeek : (cache c below).peekCoin o = none) :
    (cache c below).Decided o := by
  rw [peekCoin_cache] at hpeek
  cases hfind : c.find o with
  | none =>
    rw [hfind] at hpeek
    exact inr hpeek
  | some e => exact inl (by rw [hfind]; rfl)

/-! ## The best block -/

theorem bestBlock_cache (c : CoinsViewCache) (below : CoinsView) :
    (cache c below).bestBlock = if c.blockHash = 0 then below.bestBlock else c.blockHash := by
  rw [bestBlock, getBestBlock]
  split <;> rfl

/-! ## The operations -/

/-- What an operation leaves that makes these the maps seen and hidden. -/
structure Changed (v v' : CoinsView) (seen hidden : OutPoint → Option Coin) : Prop where
  sound : v'.Sound
  peekCoin_eq : v'.peekCoin = seen
  shadow_eq : v'.shadow = hidden
  tail_eq : v'.layers.tail = v.layers.tail
  bestBlock_eq : ∀ hash, (v'.setBestBlock hash).bestBlock = (v.setBestBlock hash).bestBlock
  decided : ∀ x, v.shadow x = none → v.Decided x → v'.Decided x
  isCache : v.IsCache → v'.IsCache

theorem shadow_update (below : CoinsView) {e : Option CoinsCacheEntry}
    (hfind : c'.find = update c.find o e) : (cache c' below).shadow =
      update (cache c below).shadow o (shadowOver e (below.peekCoin o)) := by
  funext y
  rw [shadow, hfind]
  exact apply_update (fun y e => shadowOver e (below.peekCoin y)) c.find o e y

/-- **Setting an entry**, over a view below that may have fetched. -/
theorem Sound.changed {e : Option CoinsCacheEntry} (h : (cache c below).Sound) (below' : CoinsView)
    (hleft : c.Replaced c' o e) (he : ∀ e', e = some e' → SoundEntry (below.peekCoin o) e')
    (hlook : Looked below below' ∧ below'.bestBlock = below.bestBlock)
    (hkeep : (c.find o).isSome → (cache c below).shadow o = none →
      e.isSome ∨ below.peekCoin o = none) : Changed (cache c below) (cache c' below')
      (update (cache c below).peekCoin o (valueOver e (below.peekCoin o)))
      (update (cache c below).shadow o (shadowOver e (below.peekCoin o))) where
  sound := by
    refine ⟨hleft.tracked, ?_, hlook.1.coherent⟩
    rw [peekCoin_of_layers hlook.1.layers_eq]
    exact FiniteMap.forall_update hleft.find_eq h.2.1 he
  peekCoin_eq := by
    have hpeek : (cache c' below).peekCoin = _ := peekCoin_update hleft.find_eq
    rw [← hpeek]
    funext y
    rw [peekCoin_cache, peekCoin_cache, peekCoin_of_layers hlook.1.layers_eq]
  shadow_eq := by
    rw [← shadow_update below hleft.find_eq]
    funext y
    rw [shadow, shadow, peekCoin_of_layers hlook.1.layers_eq]
  tail_eq := hlook.1.layers_eq
  bestBlock_eq hash := by
    rw [setBestBlock, setBestBlock, bestBlock_cache, bestBlock_cache, hlook.2]
    rfl
  decided x hshadow hx := by
    rw [Decided, peekCoin_of_layers hlook.1.layers_eq, hleft.find_eq]
    by_cases hxo : x = o
    · subst hxo
      rw [update_self]
      rcases hx with hx | hx
      · exact hkeep hx hshadow
      · exact inr hx
    · rw [update_of_ne hxo]
      exact hx
  isCache _ := trivial

theorem looked_ite {p : Prop} [Decidable p] {below₁ : CoinsView} (h : below.Coherent)
    (hlook : Looked below below₁ ∧ below₁.bestBlock = below.bestBlock) :
    Looked below (if p then below else below₁) ∧
      (if p then below else below₁).bestBlock = below.bestBlock := by
  split
  · exact ⟨Looked.refl h, rfl⟩
  · exact hlook

/-- **Fetching** changes neither map. -/
theorem Sound.fetchCoin (h : (cache c below).Sound)
    (hget : ∃ below', below.getCoin o = .ok (below', below.peekCoin o) ∧
      Looked below below' ∧ below'.bestBlock = below.bestBlock) :
    ∃ c' below' it, c.fetchCoin o below (below.getCoin o) = .ok (c', below', it) ∧
      Changed (cache c below) (cache c' below') (cache c below).peekCoin (cache c below).shadow ∧
      it.bind CoinsCacheEntry.value = (cache c below).peekCoin o ∧
      (∀ e, it = some e → SoundEntry (below.peekCoin o) e) ∧
      (cache c' below').bestBlock = (cache c below).bestBlock := by
  obtain ⟨below₁, hget, hlook⟩ := hget
  have hanswer : ∀ coin, below.peekCoin o = some coin → coin.isSpent = false :=
    fun coin hcoin => h.2.2.unspent hcoin
  obtain ⟨c', hfetch, hleft, hhash⟩ := CoinsViewCache.fetchCoin_spec below below₁ h.1 hanswer
  have hentry := SoundEntry.of_answer (h.2.1 o) hanswer
  have hlook' := looked_ite (p := (c.find o).isSome) h.2.2 hlook
  refine ⟨c', _, _, by rw [hget, hfetch], ?_, ?_, hentry, ?_⟩
  · have hchanged := h.changed _ hleft hentry hlook' fun hsome _ => by
      obtain ⟨e, he⟩ := isSome_iff_exists.mp hsome
      simp [he, fetched]
    rw [(value_fetched _ hanswer).1, shadowOver_fetched, ← peekCoin_cache] at hchanged
    rw [show shadowOver (c.find o) (below.peekCoin o) = (cache c below).shadow o from rfl,
      update_eq_self, update_eq_self] at hchanged
    exact hchanged
  · rw [(value_fetched _ hanswer).2, peekCoin_cache]
  · rw [bestBlock_cache, bestBlock_cache, hhash, hlook'.2]

theorem Changed.refl (h : v.Sound) : Changed v v v.peekCoin v.shadow :=
  ⟨h, rfl, rfl, rfl, fun _ => rfl, fun _ _ hx => hx, id⟩

theorem Changed.trans {v'' : CoinsView} (h : Changed v v' v.peekCoin v.shadow)
    {seen hidden : OutPoint → Option Coin} (h' : Changed v' v'' seen hidden) :
    Changed v v'' seen hidden where
  sound := h'.sound
  peekCoin_eq := h'.peekCoin_eq
  shadow_eq := h'.shadow_eq
  tail_eq := h'.tail_eq.trans h.tail_eq
  bestBlock_eq hash := (h'.bestBlock_eq hash).trans (h.bestBlock_eq hash)
  decided x hnone hx := h'.decided x (by rw [h.shadow_eq]; exact hnone) (h.decided x hnone hx)
  isCache hv := h'.isCache (h.isCache hv)

/-- **An operation that hides nothing** leaves a coherent stack. -/
theorem Changed.coherent {seen : OutPoint → Option Coin} (h : Changed v v' seen fun _ => none) :
    v'.Coherent ∧ v'.layers = seen :: v.layers.tail := by
  refine ⟨h.sound.coherent h.shadow_eq, ?_⟩
  rw [layers_eq_cons, h.peekCoin_eq, h.tail_eq]

theorem Changed.looked (h : Changed v v' v.peekCoin v.shadow) (hv : v.Coherent) : Looked v v' := by
  rw [hv.shadow_eq] at h
  exact ⟨h.coherent.1, h.coherent.2.trans (layers_eq_cons v).symm⟩

/-- **`GetCoin` returns what the layer's map has**, on every layer. -/
theorem getCoin_spec (h : v.Coherent) :
    ∃ v', v.getCoin o = .ok (v', v.peekCoin o) ∧ Looked v v' ∧ v'.bestBlock = v.bestBlock := by
  induction v with
  | base coins hash => exact ⟨_, rfl, Looked.refl h, rfl⟩
  | cache c below ih =>
    obtain ⟨c', below', it, hfetch, hchanged, hit, -, hbest⟩ := h.sound.fetchCoin (ih h.2.2)
    exact ⟨cache c' below', by rw [getCoin, hfetch, ← hit], hchanged.looked h, hbest⟩

/-- **`GetBestBlock`** keeps what it asked for, and that is all. -/
theorem Coherent.getBestBlock (h : v.Coherent) :
    Changed v v.getBestBlock.1 v.peekCoin v.shadow ∧ v.getBestBlock.1.Coherent ∧
      v.getBestBlock.1.bestBlock = v.bestBlock := by
  induction v with
  | base coins hash => exact ⟨Changed.refl h.sound, h, rfl⟩
  | cache c below ih =>
    obtain ⟨hchanged, hcoh, hbest⟩ := ih h.2.2
    rw [CoinsView.getBestBlock, bestBlock_cache]
    split_ifs with hne
    · have hpeek := hchanged.peekCoin_eq
      have hcoh' : (cache (c.setBestBlock below.getBestBlock.2) below.getBestBlock.1).Coherent :=
        ⟨h.1.congr rfl rfl rfl, fun o e he => by rw [hpeek]; exact h.2.1 o e he, hcoh⟩
      refine ⟨⟨hcoh'.sound, ?_, ?_, ?_, ?_, ?_, fun _ => trivial⟩, hcoh', ?_⟩
      · funext o
        rw [peekCoin_cache, hpeek]
        rfl
      · funext o
        rw [shadow, hpeek]
        rfl
      · rw [layers, layers, List.tail_cons, List.tail_cons, layers_eq_cons, hpeek,
          hchanged.tail_eq, ← layers_eq_cons]
      · intro hash
        rw [setBestBlock, setBestBlock, bestBlock_cache, bestBlock_cache, hbest]
        rfl
      · intro x _ hx
        rw [Decided, hpeek]
        exact hx
      · rw [bestBlock_cache, hbest]
        split
        · rfl
        · rfl
    · exact ⟨Changed.refl h.sound, h, by rw [bestBlock_cache, if_neg hne]⟩

/-- **`HaveCoin`** tells whether a coin is seen. -/
theorem haveCoin_sound (h : (cache c below).Sound) (o : OutPoint) :
    ∃ v', (cache c below).haveCoin o = .ok (v', ((cache c below).peekCoin o).isSome) ∧
      Changed (cache c below) v' (cache c below).peekCoin (cache c below).shadow := by
  obtain ⟨c', below', it, hfetch, hchanged, hit, -⟩ := h.fetchCoin (getCoin_spec (o := o) h.2.2)
  refine ⟨cache c' below', ?_, hchanged⟩
  simp only [CoinsView.haveCoin, hfetch, ← hit]
  cases it with
  | none => rfl
  | some e => cases hs : e.coin.isSpent <;> simp [CoinsCacheEntry.value, hs]

/-- **`AccessCoin`** returns the coin that is seen, or the empty one. -/
theorem accessCoin_sound (h : (cache c below).Sound) (o : OutPoint) :
    ∃ v', (cache c below).accessCoin o = .ok (v', ((cache c below).peekCoin o).getD {}) ∧
      Changed (cache c below) v' (cache c below).peekCoin (cache c below).shadow := by
  obtain ⟨c', below', it, hfetch, hchanged, hit, hentry, -⟩ :=
    h.fetchCoin (getCoin_spec (o := o) h.2.2)
  refine ⟨cache c' below', ?_, hchanged⟩
  simp only [CoinsView.accessCoin, hfetch, ← hit]
  cases it with
  | none => rfl
  | some e =>
    cases hs : e.coin.isSpent with
    | false => simp [CoinsCacheEntry.value, hs]
    | true => simpa [CoinsCacheEntry.value, hs] using (hentry e rfl).of_spent hs

/-- **`SpendCoin`** moves out the coin that is seen; what it hid is seen from
then on. -/
theorem spendCoin_sound (h : (cache c below).Sound) (o : OutPoint) :
    ∃ v' moved, (cache c below).spendCoin o = .ok (v', moved) ∧ Changed (cache c below) v'
        (update (cache c below).peekCoin o ((cache c below).shadow o))
        (update (cache c below).shadow o none) ∧
      ∀ coin, (cache c below).peekCoin o = some coin → moved = some coin := by
  obtain ⟨below₁, hget, hlook⟩ := getCoin_spec h.2.2
  have hanswer : ∀ coin, below.peekCoin o = some coin → coin.isSpent = false :=
    fun coin hcoin => h.2.2.unspent hcoin
  obtain ⟨c', hspend, hupd⟩ := CoinsViewCache.spendCoin_spec below below₁ h.1 hanswer
  set it := fetched (c.find o) (below.peekCoin o) with hit
  have hshadow : shadowOver it (below.peekCoin o) = (cache c below).shadow o :=
    shadowOver_fetched _ _
  have hleft : (∀ e, it.bind spentEntry = some e →
        SoundEntry (below.peekCoin o) e) ∧
      valueOver (it.bind spentEntry) (below.peekCoin o) =
        shadowOver it (below.peekCoin o) ∧
      shadowOver (it.bind spentEntry) (below.peekCoin o) = none := by
    cases hi : it with
    | none =>
      have hnone : (c.find o).or _ = none := hi
      simpa [valueOver, shadowOver] using (or_eq_none_iff.mp hnone).2
    | some e => exact SoundEntry.of_spend
  refine ⟨_, it.map CoinsCacheEntry.coin, by rw [CoinsView.spendCoin, hget, hspend], ?_,
    fun coin hcoin => map_coin_fetched hanswer hcoin⟩
  have hchanged := h.changed _ hupd hleft.1 (looked_ite (p := (c.find o).isSome) h.2.2 hlook)
    fun hsome hnone => by
      obtain ⟨e, he⟩ := isSome_iff_exists.mp hsome
      rw [shadow, he] at hnone
      rw [hit, he]
      cases hfresh : e.fresh with
      | true => exact inr (by simpa [shadowOver, hfresh] using hnone)
      | false => exact inl (by simp [fetched, spentEntry, hfresh])
  rwa [hleft.2.1, hleft.2.2, hshadow] at hchanged

/-! The same of any view, for an operation that has succeeded. -/

theorem Sound.haveCoin {found : Bool} (h : v.Sound) (hok : v.haveCoin o = .ok (v', found)) :
    Changed v v' v.peekCoin v.shadow ∧ found = (v.peekCoin o).isSome := by
  cases v with
  | base coins hash =>
    obtain ⟨rfl, rfl⟩ := mk.inj (ok.inj hok)
    exact ⟨Changed.refl h, rfl⟩
  | cache c below =>
    obtain ⟨v₁, hhave, hchanged⟩ := haveCoin_sound h o
    obtain ⟨rfl, rfl⟩ := mk.inj (ok.inj (hhave.symm.trans hok))
    exact ⟨hchanged, rfl⟩

theorem Sound.accessCoin (h : v.Sound) (hok : v.accessCoin o = .ok (v', coin)) :
    Changed v v' v.peekCoin v.shadow ∧ coin = (v.peekCoin o).getD {} := by
  cases v with
  | base coins hash => cases hok
  | cache c below =>
    obtain ⟨v₁, haccess, hchanged⟩ := accessCoin_sound h o
    obtain ⟨rfl, rfl⟩ := mk.inj (ok.inj (haccess.symm.trans hok))
    exact ⟨hchanged, rfl⟩

theorem Sound.spendCoin {moved : Option Coin} (h : v.Sound)
    (hok : v.spendCoin o = .ok (v', moved)) :
    Changed v v' (update v.peekCoin o (v.shadow o)) (update v.shadow o none) ∧
      ∀ coin, v.peekCoin o = some coin → moved = some coin := by
  cases v with
  | base coins hash => cases hok
  | cache c below =>
    obtain ⟨v₁, moved₁, hspend, hchanged⟩ := spendCoin_sound h o
    obtain ⟨rfl, rfl⟩ := mk.inj (ok.inj (hspend.symm.trans hok))
    exact hchanged

variable {possibleOverwrite : Bool}

theorem addCoin_eq_ok {c' : CoinsViewCache} (hok : c.addCoin o coin possibleOverwrite = .ok c') :
    coin.isSpent = false ∧ (coin.out.scriptPubKey.isUnspendable = true ∧ c' = c ∨
      coin.out.scriptPubKey.isUnspendable = false ∧
        (possibleOverwrite = false → ((c.find o).getD {}).coin.isSpent = true)) := by
  unfold CoinsViewCache.addCoin at hok
  split at hok
  · cases hok
  rename_i hspent
  refine ⟨by simpa using hspent, ?_⟩
  split_ifs at hok with hun
  · exact inl ⟨hun, (ok.inj hok).symm⟩
  refine inr ⟨by simpa using hun, fun hpo => ?_⟩
  dsimp only at hok
  split at hok
  · cases hok
  rename_i hguard
  rw [hpo] at hguard
  simpa using hguard

/-- **`AddCoin`** sets a coin that can be spent. What it hides is what was hidden before or, if
nothing was, what was seen. -/
theorem Sound.addCoin (h : v.Sound) (hok : v.addCoin o coin possibleOverwrite = .ok v') :
    coin.isSpent = false ∧ (coin.out.scriptPubKey.isUnspendable = true ∧ v' = v ∨
      coin.out.scriptPubKey.isUnspendable = false ∧
        (∃ hidden, (hidden = v.shadow ∨ possibleOverwrite = false ∧ v.shadow o = none ∧
            hidden = update v.shadow o (v.peekCoin o)) ∧
          Changed v v' (update v.peekCoin o (some coin)) hidden) ∧
        (possibleOverwrite = false → v.Decided o → v.peekCoin o = none)) := by
  cases v with
  | base coins hash => cases hok
  | cache c below => ?_
  rw [CoinsView.addCoin] at hok
  cases hadd : c.addCoin o coin possibleOverwrite with
  | error f =>
    rw [hadd] at hok
    cases hok
  | ok c' =>
    rw [hadd] at hok
    obtain rfl := ok.inj hok
    obtain ⟨hspent, hcases⟩ := addCoin_eq_ok hadd
    refine ⟨hspent, ?_⟩
    rcases hcases with ⟨hun, rfl⟩ | ⟨hun, hover⟩
    · exact inl ⟨hun, rfl⟩
    refine inr ⟨hun, ?_, ?_⟩
    · obtain ⟨c'', hadd', hleft⟩ := CoinsViewCache.addCoin_spec h.1 hspent hun hover
      obtain rfl := ok.inj (hadd.symm.trans hadd')
      have hchanged := h.changed below hleft
        (by rintro e ⟨rfl⟩; exact SoundEntry.added hspent) ⟨Looked.refl h.2.2, rfl⟩
        (fun _ _ => inl rfl)
      rw [show valueOver (some (addedEntry (c.find o) coin possibleOverwrite))
        (below.peekCoin o) = some coin by
          simp [valueOver, CoinsCacheEntry.value, addedEntry, hspent]] at hchanged
      refine ⟨_, ?_, hchanged⟩
      rcases shadowOver_addedEntry coin (h.2.1 o) hover with hsame | ⟨hpo, hnone, hseen⟩
      · left
        rw [hsame]
        exact update_eq_self o _
      · right
        rw [hseen]
        exact ⟨hpo, hnone, rfl⟩
    · intro hpo hdecided
      rw [peekCoin_cache]
      cases hfind : c.find o with
      | none =>
        rw [Decided, hfind] at hdecided
        simpa [valueOver] using hdecided
      | some e =>
        have hs := hover hpo
        rw [hfind] at hs
        simpa [valueOver, CoinsCacheEntry.value] using hs

/-! ## On a coherent stack -/

/-- **Adding a coin** that can be spent, with the truth told about overwriting. -/
theorem Coherent.addCoin (h : v.Coherent) (hok : v.addCoin o coin possibleOverwrite = .ok v')
    (hspendable : coin.out.scriptPubKey.isUnspendable = false)
    (hover : possibleOverwrite = false → v.peekCoin o = none) :
    Changed v v' (Function.update v.peekCoin o (some coin)) fun _ => none := by
  obtain ⟨-, ⟨hun, -⟩ | ⟨-, ⟨hidden, hcases, hchanged⟩, -⟩⟩ := h.sound.addCoin hok
  · rw [hspendable] at hun
    cases hun
  rw [h.shadow_eq] at hcases
  rcases hcases with rfl | ⟨hpo, -, rfl⟩
  · exact hchanged
  · rwa [hover hpo, Function.update_eq_self_iff.2 rfl] at hchanged

section

variable (h : (cache c below).Coherent)
include h

theorem haveCoin_spec :
    ∃ v', (cache c below).haveCoin o = .ok (v', ((cache c below).peekCoin o).isSome) ∧
      Looked (cache c below) v' := by
  obtain ⟨v', hok, hchanged⟩ := haveCoin_sound h.sound o
  exact ⟨v', hok, hchanged.looked h⟩

theorem accessCoin_spec :
    ∃ v', (cache c below).accessCoin o = .ok (v', ((cache c below).peekCoin o).getD {}) ∧
      Looked (cache c below) v' := by
  obtain ⟨v', hok, hchanged⟩ := accessCoin_sound h.sound o
  exact ⟨v', hok, hchanged.looked h⟩

/-- **`SpendCoin` deletes the coin**, and moves out the one there was. -/
theorem spendCoin_spec : ∃ v' moved, (cache c below).spendCoin o = .ok (v', moved) ∧ v'.Coherent ∧
      v'.layers = update (cache c below).peekCoin o none :: below.layers ∧
      ∀ coin, (cache c below).peekCoin o = some coin → moved = some coin := by
  obtain ⟨v', moved, hok, hchanged, hmoved⟩ := spendCoin_sound h.sound o
  rw [h.shadow_eq, update_eq_self_iff.2 rfl] at hchanged
  exact ⟨v', moved, hok, hchanged.coherent.1, hchanged.coherent.2, hmoved⟩

/-- **`AddCoin` sets the coin** where it is told the truth about overwriting. -/
theorem addCoin_spec (hspent : coin.isSpent = false)
    (hspendable : coin.out.scriptPubKey.isUnspendable = false)
    (hover : possibleOverwrite = false → (cache c below).peekCoin o = none) :
    ∃ c', c.addCoin o coin possibleOverwrite = .ok c' ∧ (cache c' below).Coherent ∧
      (cache c' below).layers = update (cache c below).peekCoin o (some coin) :: below.layers := by
  have hguard : possibleOverwrite = false → ((c.find o).getD {}).coin.isSpent = true := by
    intro hpo
    have hnone := hover hpo
    rw [peekCoin_cache] at hnone
    cases hfind : c.find o with
    | none => rfl
    | some e =>
      rw [hfind] at hnone
      simpa [valueOver, CoinsCacheEntry.value] using hnone
  obtain ⟨c', hadd, -⟩ := CoinsViewCache.addCoin_spec h.1 hspent hspendable hguard
  have hok : (cache c below).addCoin o coin possibleOverwrite = .ok (cache c' below) := by
    rw [CoinsView.addCoin, hadd]
    rfl
  exact ⟨c', hadd, (h.addCoin hok hspendable hover).coherent⟩

end

end CoinsView

end Coins

end Quarlcoin
