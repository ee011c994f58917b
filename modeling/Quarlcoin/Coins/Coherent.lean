import Quarlcoin.Coins.Cache
import Quarlcoin.Common.Outcome
/-!
# The coins cache — a cache and the view below it

The map of a layer is what `PeekCoin` finds there, and `EntryOk` relates an entry to what
the view below has at its outpoint. Every operation keeps this, and the loop of `BatchWrite`
keeps it entry by entry.
-/

namespace Quarlcoin

open Arith Function Option List

namespace Coins

open CoinsViewCache (fetched spentEntry addedEntry writtenEntry cleanedEntry)

/-- An entry over a view that has `below` at its outpoint. -/
structure EntryOk (below : Option Coin) (e : CoinsCacheEntry) : Prop where
  of_clean : e.dirty = false → below = some e.coin ∧ e.coin.isSpent = false
  of_fresh : e.fresh = true → below = none ∧ e.coin.isSpent = false
  of_spent : e.coin.isSpent = true → e.coin = {}

/-- What a cache with this entry finds, over a view that has `below` there. -/
def valueOver (found : Option CoinsCacheEntry) (below : Option Coin) : Option Coin :=
  match found with
  | some e => e.value
  | none => below

/-! ## One entry -/

variable {e it : CoinsCacheEntry} {coin : Coin} {answer : Option Coin}
  {found : Option CoinsCacheEntry}

theorem CoinsCacheEntry.value_eq_some :
    e.value = some coin ↔ e.coin = coin ∧ coin.isSpent = false := by
  rw [value]
  split_ifs with hs
  · simpa using fun h => h ▸ hs
  · simpa using fun h => h ▸ Bool.eq_false_iff.2 hs

theorem EntryOk.value_of_clean {below : Option Coin} (h : EntryOk below e)
    (hd : e.dirty = false) : e.value = below := by
  rw [(h.of_clean hd).1]
  exact CoinsCacheEntry.value_eq_some.2 ⟨rfl, (h.of_clean hd).2⟩

/-- Fetching changes no map, and the entry fetched tells what the layer's map has. -/
theorem value_fetched (found : Option CoinsCacheEntry)
    (hanswer : ∀ coin, answer = some coin → coin.isSpent = false) :
    valueOver (fetched found answer) answer = valueOver found answer ∧
      (fetched found answer).bind CoinsCacheEntry.value = valueOver found answer := by
  cases found with
  | some e => exact ⟨rfl, rfl⟩
  | none =>
    cases answer with
    | none => exact ⟨rfl, rfl⟩
    | some coin =>
      have hvalue : ({ coin } : CoinsCacheEntry).value = some coin :=
        CoinsCacheEntry.value_eq_some.2 ⟨rfl, hanswer coin rfl⟩
      exact ⟨hvalue, hvalue⟩

theorem map_coin_fetched (hanswer : ∀ coin, answer = some coin → coin.isSpent = false)
    (hcoin : valueOver found answer = some coin) :
    (fetched found answer).map CoinsCacheEntry.coin = some coin := by
  rw [← (value_fetched _ hanswer).2] at hcoin
  obtain ⟨e, he, hvalue⟩ := bind_eq_some_iff.mp hcoin
  rw [he, map_some, (CoinsCacheEntry.value_eq_some.1 hvalue).1]

/-- A dirty entry written to a cache leaves there one that fits, with the same value. -/
theorem EntryOk.written {below : Option Coin} (hit : EntryOk (valueOver found below) it)
    (hfound : ∀ us, found = some us → EntryOk below us) :
    (∀ e, writtenEntry it found = some e → EntryOk below e) ∧
      valueOver (writtenEntry it found) below = it.value := by
  cases found with
  | none =>
    by_cases hdrop : (it.fresh && it.coin.isSpent) = true
    · -- no fresh entry is spent
      obtain ⟨hfresh, hs⟩ := Bool.and_eq_true_iff.mp hdrop
      rw [(hit.of_fresh hfresh).2] at hs
      cases hs
    · rw [writtenEntry, if_neg hdrop]
      refine ⟨?_, rfl⟩
      rintro e ⟨rfl⟩
      exact ⟨by simp, hit.of_fresh, hit.of_spent⟩
  | some us =>
    have hus := hfound us rfl
    by_cases hdrop : (us.fresh && it.coin.isSpent) = true
    · obtain ⟨hfresh, hs⟩ := Bool.and_eq_true_iff.mp hdrop
      rw [writtenEntry, if_pos hdrop]
      refine ⟨by simp, ?_⟩
      rw [CoinsCacheEntry.value, if_pos hs]
      exact (hus.of_fresh hfresh).1
    · rw [writtenEntry, if_neg hdrop]
      refine ⟨?_, rfl⟩
      rintro e ⟨rfl⟩
      refine ⟨by simp, ?_, hit.of_spent⟩
      intro hfresh
      refine ⟨(hus.of_fresh hfresh).1, ?_⟩
      cases hs : it.coin.isSpent with
      | false => rfl
      | true => exact absurd (by simp [hs, show us.fresh = true from hfresh]) hdrop

/-- Once the view below has an entry's value, the entry may be cleaned. -/
theorem EntryOk.cleaned : (∀ e', cleanedEntry e = some e' → EntryOk e.value e') ∧
      valueOver (cleanedEntry e) e.value = e.value := by
  by_cases hs : e.coin.isSpent = true
  · rw [cleanedEntry, if_pos hs]
    exact ⟨by simp, rfl⟩
  rw [cleanedEntry, if_neg hs]
  have hs' : e.coin.isSpent = false := by simpa using hs
  refine ⟨?_, rfl⟩
  rintro e' ⟨rfl⟩
  exact ⟨fun _ => ⟨by rw [CoinsCacheEntry.value, if_neg hs], hs'⟩, by simp, by simp [hs']⟩

namespace CoinsView

/-- Every entry of every layer fits the view below it, and a map holds unspent
coins only. -/
def Coherent : CoinsView → Prop
  | base coins _ => ∀ o coin, coins.lookup o = some coin → coin.isSpent = false
  | cache c below =>
    c.Tracked ∧ (∀ o e, c.find o = some e → EntryOk (below.peekCoin o) e) ∧ below.Coherent

/-- The maps the layers stand for, from the top down. -/
def layers : CoinsView → List (OutPoint → Option Coin)
  | base coins hash => [(base coins hash).peekCoin]
  | cache c below => (cache c below).peekCoin :: below.layers

variable {c c' : CoinsViewCache} {below below' v v' : CoinsView} {o : OutPoint}

theorem peekCoin_cache (c : CoinsViewCache) (below : CoinsView) (o : OutPoint) :
    (cache c below).peekCoin o = valueOver (c.find o) (below.peekCoin o) := by
  rw [peekCoin]
  cases c.find o <;> rfl

theorem layers_eq_cons (v : CoinsView) : v.layers = v.peekCoin :: v.layers.tail := by
  cases v <;> rfl

theorem peekCoin_of_layers (h : v'.layers = v.layers) : v'.peekCoin = v.peekCoin := by
  rw [layers_eq_cons v', layers_eq_cons v] at h
  exact (cons.inj h).1

/-- **A lookup never finds a spent coin.** -/
theorem Coherent.unspent (h : v.Coherent) (hpeek : v.peekCoin o = some coin) :
    coin.isSpent = false := by
  induction v with
  | base coins hash => exact h o coin hpeek
  | cache c below ih =>
    rw [peekCoin_cache] at hpeek
    cases hfind : c.find o with
    | none =>
      rw [hfind] at hpeek
      exact ih h.2.2 hpeek
    | some e =>
      rw [hfind] at hpeek
      exact (CoinsCacheEntry.value_eq_some.1 hpeek).2

variable {x : Option CoinsCacheEntry}

theorem peekCoin_update (hfind : c'.find = update c.find o x) : (cache c' below).peekCoin =
      update (cache c below).peekCoin o (valueOver x (below.peekCoin o)) := by
  funext y
  rw [peekCoin_cache, hfind]
  exact apply_update (fun y e => valueOver e (below.peekCoin y)) c.find o x y

/-- **An update that fits** keeps the stack coherent. -/
theorem Coherent.update (h : (cache c below).Coherent) (hleft : c.Replaced c' o x)
    (hx : ∀ e, x = some e → EntryOk (below.peekCoin o) e) : (cache c' below).Coherent :=
  ⟨hleft.tracked, FiniteMap.forall_update hleft.find_eq h.2.1 hx, h.2.2⟩

/-- **Only the map below matters**: the view there may be replaced by another
that stands for the same map. -/
theorem Coherent.replace (h : (cache c below).Coherent) (hbelow : below'.Coherent)
    (hpeek : below'.peekCoin = below.peekCoin) :
    (cache c below').Coherent ∧ (cache c below').peekCoin = (cache c below).peekCoin := by
  refine ⟨⟨h.1, ?_, hbelow⟩, ?_⟩
  · rw [hpeek]
    exact h.2.1
  · funext y
    rw [peekCoin_cache, peekCoin_cache, hpeek]

/-! ## Lookups -/

/-- What a lookup leaves: a coherent stack that stands for the same maps. -/
structure Looked (v v' : CoinsView) : Prop where
  coherent : v'.Coherent
  layers_eq : v'.layers = v.layers

theorem Looked.refl (h : v.Coherent) : Looked v v := ⟨h, rfl⟩

/-! ## Changes to one layer -/

theorem Coherent.set (h : (cache c below).Coherent) {r : Option Coin} (hleft : c.Replaced c' o x)
    (hx : ∀ e, x = some e → EntryOk (below.peekCoin o) e)
    (hr : valueOver x (below.peekCoin o) = r) : (cache c' below).Coherent ∧
      (cache c' below).layers = Function.update (cache c below).peekCoin o r :: below.layers := by
  refine ⟨h.update hleft hx, ?_⟩
  rw [layers, peekCoin_update hleft.find_eq, hr]

/-- **`Uncache` changes no map**: a clean entry repeats what is below. -/
theorem uncache_spec (h : (cache c below).Coherent) :
    Looked (cache c below) (cache (c.uncache o) below) := by
  have hentry : ∀ e, (c.find o).filter (fun e => e.dirty) = some e →
      EntryOk (below.peekCoin o) e := by
    intro e he
    exact h.2.1 o e (filter_eq_some_iff.mp he).1
  have hvalue : valueOver ((c.find o).filter fun e => e.dirty) (below.peekCoin o) =
      (cache c below).peekCoin o := by
    rw [peekCoin_cache]
    cases hf : c.find o with
    | none => rfl
    | some e =>
      cases hd : e.dirty with
      | true => rw [filter_some, if_pos hd]
      | false =>
        rw [filter_some, if_neg (by simp [hd])]
        exact ((h.2.1 o e hf).value_of_clean hd).symm
  obtain ⟨hcoh, hlayers⟩ := h.set (CoinsViewCache.uncache_spec h.1) hentry hvalue
  refine ⟨hcoh, ?_⟩
  rw [hlayers, Function.update_eq_self, layers]

theorem coherent_of_empty (hbelow : below.Coherent) (hfind : ∀ o, c.find o = none)
    (hflag : c.flagged = []) (hcount : c.dirtyCount = 0) :
    (cache c below).Coherent ∧ (cache c below).peekCoin = below.peekCoin := by
  refine ⟨⟨.of_empty hfind hflag hcount, ?_, hbelow⟩, ?_⟩
  · intro o e he
    rw [hfind o] at he
    cases he
  · funext o
    rw [peekCoin_cache, hfind o]
    rfl

/-! ## Writing to the view below -/

theorem lookup_writeEntry (coins : UtxoSet) (o : OutPoint) (it : CoinsCacheEntry) :
    (fun x => (if it.coin.isSpent then coins.erase o else coins.insert o it.coin).lookup x) =
      update (fun x => coins.lookup x) o it.value := by
  rw [CoinsCacheEntry.value]
  split
  · exact FiniteMap.lookup_erase_eq_update coins o
  · exact FiniteMap.lookup_insert_eq_update coins o it.coin

/-- **Writing one entry** sets the map it is written to at one outpoint, and
touches nothing further down. -/
theorem writeEntry_spec (h : v.Coherent) (hit : EntryOk (v.peekCoin o) it) :
    ∃ v', v.writeEntry o it = .ok v' ∧ v'.Coherent ∧
      v'.layers = Function.update v.peekCoin o it.value :: v.layers.tail := by
  cases v with
  | base coins hash =>
    have hpeek := lookup_writeEntry coins o it
    exact ⟨_, rfl, FiniteMap.forall_update hpeek h fun coin hcoin =>
      (CoinsCacheEntry.value_eq_some.1 hcoin).2, congrArg (· :: []) hpeek⟩
  | cache c below =>
    rw [peekCoin_cache] at hit
    obtain ⟨hentry, hvalue⟩ := hit.written (h.2.1 o)
    have hmis : ∀ us, c.find o = some us → it.fresh = true → us.coin.isSpent = true := by
      intro us hus hfresh
      have hnone := (hit.of_fresh hfresh).1
      rw [hus] at hnone
      simpa [valueOver, CoinsCacheEntry.value] using hnone
    obtain ⟨c', hwrite, hleft⟩ := CoinsViewCache.writeEntry_spec h.1 hmis
    obtain ⟨hcoh, hlayers⟩ := h.set hleft hentry hvalue
    exact ⟨cache c' below, by rw [writeEntry, hwrite]; rfl, hcoh, hlayers⟩

theorem setBestBlock_looked (h : v.Coherent) (hash : Uint256) : Looked v (v.setBestBlock hash) := by
  cases v with
  | base coins _ => exact ⟨h, rfl⟩
  | cache c below => exact ⟨⟨h.1.congr rfl rfl rfl, h.2.1, h.2.2⟩, rfl⟩

variable (h : (cache c v).Coherent)
include h

/-- **One round of the loop.** The first flagged entry is written and cleaned;
the map of the cache stays, and the view below now has its value there. -/
theorem batchWrite_step {rest : List OutPoint} (hflag : c.flagged = o :: rest) :
    ∃ e c' v', c.find o = some e ∧ e.dirty = true ∧ v.writeEntry o e = .ok v' ∧
      c.nextAndMaybeErase o false e = .ok c' ∧ (cache c' v').Coherent ∧ c'.flagged = rest ∧
      c'.find = update c.find o (cleanedEntry e) ∧
      (cache c' v').peekCoin = (cache c v).peekCoin ∧ v'.layers.tail = v.layers.tail := by
  obtain ⟨e, he, hd⟩ := (h.1.mem_iff o).mp (by rw [hflag]; exact mem_cons_self)
  have hentry := h.2.1 o e he
  obtain ⟨v', hwrite, hcoh, hlayers⟩ := writeEntry_spec h.2.2 hentry
  obtain ⟨c', hnext, ⟨ht, hfind, -⟩, hrest⟩ :=
    CoinsViewCache.nextAndMaybeErase_spec h.1 he hd fun hs => by rw [hentry.of_spent hs]; rfl
  have hpeek : v'.peekCoin = update v.peekCoin o e.value := by
    have hcons := layers_eq_cons v'
    rw [hlayers] at hcons
    exact (cons.inj hcons).1.symm
  refine ⟨e, c', v', he, hd, hwrite, hnext, ⟨ht, ?_, hcoh⟩, ?_, hfind, ?_, by rw [hlayers]; rfl⟩
  · intro x ex hx
    rw [hfind] at hx
    rw [hpeek]
    by_cases hxo : x = o
    · subst hxo
      rw [update_self] at hx ⊢
      exact EntryOk.cleaned.1 ex hx
    · rw [update_of_ne hxo] at hx ⊢
      exact h.2.1 x ex hx
  · rw [hrest, hflag, erase_cons_head]
  · funext x
    rw [peekCoin_cache, peekCoin_cache, hfind, hpeek]
    by_cases hxo : x = o
    · subst hxo
      rw [update_self, update_self, EntryOk.cleaned.2, he]
      rfl
    · rw [update_of_ne hxo, update_of_ne hxo]

theorem Coherent.peekCoin_of_not_mem (ho : o ∉ c.flagged) :
    v.peekCoin o = (cache c v).peekCoin o := by
  rw [peekCoin_cache]
  cases hfind : c.find o with
  | none => rfl
  | some e =>
    have hd : e.dirty = false := by
      by_contra hne
      exact ho ((h.1.mem_flagged hfind).2 (by simpa using hne))
    exact ((h.2.1 o e hfind).value_of_clean hd).symm

theorem peekCoin_of_unflagged (hflag : c.flagged = []) : v.peekCoin = (cache c v).peekCoin :=
  funext fun _ => h.peekCoin_of_not_mem (by simp [hflag])

omit h

/-- **The loop of `Sync`** cleans every entry. -/
theorem syncLoop_spec : ∀ (rest : List OutPoint) (c : CoinsViewCache) (v : CoinsView),
    (cache c v).Coherent → c.flagged = rest →
    ∃ c' v', batchWriteLoop false rest c v = .ok (c', v') ∧ (cache c' v').Coherent ∧
      c'.flagged = [] ∧ (cache c' v').peekCoin = (cache c v).peekCoin ∧
      v'.layers.tail = v.layers.tail := by
  intro rest
  induction rest with
  | nil =>
    intro c v h hflag
    exact ⟨c, v, rfl, h, hflag, rfl, rfl⟩
  | cons o rest ih =>
    intro c v h hflag
    obtain ⟨e, c₁, v₁, he, hd, hwrite, hnext, h₁, hflag₁, -, hpeek₁, htail₁⟩ :=
      batchWrite_step h hflag
    obtain ⟨c', v', hloop, h', hflag', hpeek', htail'⟩ := ih c₁ v₁ h₁ hflag₁
    refine ⟨c', v', ?_, h', hflag', hpeek'.trans hpeek₁, htail'.trans htail₁⟩
    simp only [batchWriteLoop, he, hd, if_true, hwrite, hnext, ok_bind, hloop]

/-- **The loop of `Flush`** leaves the cache to be cleared, and what it writes
is what the loop of `Sync` would have written from `ghost`. -/
theorem flushLoop_spec : ∀ (rest : List OutPoint) (c ghost : CoinsViewCache) (v : CoinsView),
    (cache ghost v).Coherent → ghost.flagged = rest → (∀ o ∈ rest, c.find o = ghost.find o) →
    c.dirtyCount = rest.length →
    ∃ c' v', batchWriteLoop true rest c v = .ok (c', v') ∧ v'.Coherent ∧
      v'.peekCoin = (cache ghost v).peekCoin ∧ v'.layers.tail = v.layers.tail ∧
      c'.dirtyCount = 0 := by
  intro rest
  induction rest with
  | nil =>
    intro c ghost v h hflag _ hcount
    exact ⟨c, v, rfl, h.2.2, peekCoin_of_unflagged h hflag, rfl, hcount⟩
  | cons o rest ih =>
    intro c ghost v h hflag hsame hcount
    obtain ⟨e, ghost₁, v₁, he, hd, hwrite, -, h₁, hflag₁, hfind₁, hpeek₁, htail₁⟩ :=
      batchWrite_step h hflag
    have hnodup := h.1.nodup
    rw [hflag, nodup_cons] at hnodup
    have hsame₁ : ∀ x ∈ rest, (c.subDirty e).find x = ghost₁.find x := by
      intro x hx
      have hne : x ≠ o := fun hxo => hnodup.1 (hxo ▸ hx)
      rw [hfind₁, update_of_ne hne]
      exact hsame x (mem_cons_of_mem o hx)
    have hcount₁ : (c.subDirty e).dirtyCount = rest.length := by
      simp [CoinsViewCache.subDirty, hd, hcount, trySub]
    obtain ⟨c', v', hloop, h', hpeek', htail', hcount'⟩ :=
      ih (c.subDirty e) ghost₁ v₁ h₁ hflag₁ hsame₁ hcount₁
    have hfind : c.find o = some e := (hsame o mem_cons_self).trans he
    refine ⟨c', v', ?_, h', hpeek'.trans hpeek₁, htail'.trans htail₁, hcount'⟩
    simp only [batchWriteLoop, hfind, hd, if_true, hwrite, CoinsViewCache.nextAndMaybeErase,
      ok_bind, hloop]

/-- **`Sync` copies the map one layer down.** -/
theorem sync_spec (h : (cache c below).Coherent) :
    ∃ v', (cache c below).sync = .ok v' ∧ v'.Coherent ∧
      v'.layers = (cache c below).peekCoin :: (cache c below).peekCoin :: below.layers.tail := by
  obtain ⟨c', v₁, hloop, h₁, hflag, hpeek, htail⟩ := syncLoop_spec c.flagged c below h rfl
  have hlook := setBestBlock_looked h₁.2.2 c'.blockHash
  obtain ⟨h', hpeek'⟩ := h₁.replace hlook.coherent (peekCoin_of_layers hlook.layers_eq)
  refine ⟨cache c' (v₁.setBestBlock c'.blockHash), ?_, h', ?_⟩
  · simp only [sync, batchWrite, hloop, ok_bind, hflag, isEmpty_nil, if_true]
  · rw [layers, hpeek', hlook.layers_eq, layers_eq_cons v₁, htail,
      peekCoin_of_unflagged h₁ hflag, hpeek]

/-- **So does `Flush`**, and empties the cache. -/
theorem flush_spec (h : (cache c below).Coherent) :
    ∃ v', (cache c below).flush = .ok v' ∧ v'.Coherent ∧
      v'.layers = (cache c below).peekCoin :: (cache c below).peekCoin :: below.layers.tail := by
  obtain ⟨c', v₁, hloop, h₁, hpeek, htail, hcount⟩ :=
    flushLoop_spec c.flagged c c below h rfl (fun _ _ => rfl) h.1.count
  have hlook := setBestBlock_looked h₁ c'.blockHash
  obtain ⟨h', hpeek'⟩ := coherent_of_empty (c := { c'.clear with cachedCoinsUsage := 0 })
    hlook.coherent (fun o => Finmap.lookup_empty o) rfl hcount
  refine ⟨_, ?_, h', ?_⟩
  · simp only [flush, batchWrite, hloop, ok_bind]
  · rw [layers, hpeek', hlook.layers_eq, peekCoin_of_layers hlook.layers_eq, layers_eq_cons v₁,
      htail, hpeek]

end CoinsView

end Coins

end Quarlcoin
