import Quarlcoin.Common.FiniteMap
import Quarlcoin.Coins.Model
/-!
# The coins cache — what one cache keeps in order

`Tracked` says that the list of flagged entries and the count of dirty ones describe the
entries. Every operation changes the entry of one outpoint (`Replaced`) and keeps both in
step.
-/

namespace Quarlcoin.Coins

open Function Option CoinsCacheEntry List

theorem Coin.isSpent_default : ({} : Coin).isSpent = true := rfl

theorem trySub_of_le {i j : ℕ} (h : j ≤ i) : trySub i j = i - j := by rw [trySub, if_neg (by omega)]

namespace CoinsViewCache

variable {c c' : CoinsViewCache} {o : OutPoint} {e : CoinsCacheEntry}

/-! ## The entries after an update -/

theorem find_insert {entries : Finmap fun _ : OutPoint => CoinsCacheEntry}
    (h : c'.cacheCoins = entries.insert o e) :
    c'.find = update (fun x => entries.lookup x) o (some e) := by
  rw [← FiniteMap.lookup_insert_eq_update, ← h]
  rfl

/-- `AddFlags` changes the entry of one outpoint. -/
theorem find_addFlags (dirty fresh : Bool) : (c.addFlags o e dirty fresh).find =
      update c.find o (some { e with dirty := e.dirty || dirty, fresh := e.fresh || fresh }) :=
  find_insert rfl

/-- `erase` takes it out. -/
theorem find_erase : (c.erase o e).find = update c.find o none :=
  FiniteMap.lookup_erase_eq_update c.cacheCoins o

/-! ## The list and the count -/

/-- The linked list holds the dirty entries, each once, and `m_dirty_count` is their number; a
fresh entry is dirty. -/
structure Tracked (c : CoinsViewCache) : Prop where
  nodup : c.flagged.Nodup
  mem_iff : ∀ o, o ∈ c.flagged ↔ ∃ e, c.find o = some e ∧ e.dirty = true
  count : c.dirtyCount = c.flagged.length
  dirty_of_fresh : ∀ o e, c.find o = some e → e.fresh = true → e.dirty = true

namespace Tracked

section

variable (h : c.Tracked)
include h

/-- The list has the dirty entries. -/
theorem mem_flagged (hfind : c.find o = some e) : o ∈ c.flagged ↔ e.dirty = true := by
  rw [h.mem_iff]
  constructor
  · rintro ⟨e', he', hd⟩
    rw [hfind] at he'
    rwa [some.inj he']
  · intro hd
    exact ⟨e, hfind, hd⟩

/-- A flagged entry is a dirty one. -/
theorem isFlagged_eq (hfind : c.find o = some e) : e.isFlagged = e.dirty := by
  have hfresh := h.dirty_of_fresh o e hfind
  cases hd : e.dirty
  · have : e.fresh = false := by
      by_contra hne
      rw [hd] at hfresh
      exact absurd (hfresh (by simpa using hne)) (by simp)
    simp [isFlagged, hd, this]
  · simp [isFlagged, hd]

theorem not_mem_flagged (hfind : c.find o = none) : o ∉ c.flagged := by
  rw [h.mem_iff]
  rintro ⟨e, he, -⟩
  rw [hfind] at he
  cases he

/-- The count goes down with the entry. -/
theorem dirtyCount_subDirty (hfind : c.find o = some e) :
    (c.subDirty e).dirtyCount = if o ∈ c.flagged then c.dirtyCount - 1 else c.dirtyCount := by
  have hmem := h.mem_flagged hfind
  cases hd : e.dirty
  · simp [subDirty, hmem, hd, trySub]
  · have hpos := length_pos_of_mem (hmem.mpr hd)
    rw [← h.count] at hpos
    simp [subDirty, hmem, hd, trySub_of_le (show 1 ≤ c.dirtyCount from hpos)]

theorem dirtyCount_subDirty_succ (hfind : c.find o = some e) : (c.subDirty e).dirtyCount + 1 =
      if o ∈ c.flagged then c.dirtyCount else c.dirtyCount + 1 := by
  rw [h.dirtyCount_subDirty hfind]
  split_ifs with hmem
  · have hpos := length_pos_of_mem hmem
    rw [← h.count] at hpos
    omega
  · rfl

/-- **Marking an entry dirty** keeps the list and the count in order, if it is
linked and counted once. -/
theorem mark {e' : CoinsCacheEntry}
    (hfind : c'.find = update c.find o (some e')) (hdirty : e'.dirty = true)
    (hflag : c'.flagged = if o ∈ c.flagged then c.flagged else c.flagged ++ [o])
    (hcount : c'.dirtyCount = if o ∈ c.flagged then c.dirtyCount else c.dirtyCount + 1) :
    c'.Tracked where
  nodup := by
    rw [hflag]
    split_ifs with hnew
    · exact h.nodup
    rw [nodup_append]
    refine ⟨h.nodup, nodup_singleton o, ?_⟩
    intro a ha b hb hab
    rw [mem_singleton] at hb
    exact hnew (hb ▸ hab ▸ ha)
  mem_iff := by
    intro x
    have hmem : x ∈ c'.flagged ↔ x = o ∨ x ∈ c.flagged := by
      rw [hflag]
      split_ifs with hold
      · exact ⟨Or.inr, fun hx => hx.elim (fun hxo => hxo ▸ hold) id⟩
      · rw [mem_append, mem_singleton, or_comm]
    rw [hmem, hfind, h.mem_iff]
    by_cases hx : x = o
    · subst hx
      simp [hdirty]
    · simp [hx]
  count := by
    rw [hcount, hflag, h.count]
    split
    · rfl
    · simp
  dirty_of_fresh := by
    refine FiniteMap.forall_update hfind h.dirty_of_fresh ?_
    rintro e ⟨rfl⟩ -
    exact hdirty

/-- **Clearing or dropping an entry** keeps them in order, if it is unlinked
and no longer counted. -/
theorem unmark {x : Option CoinsCacheEntry} (hfind : c'.find = update c.find o x)
    (hclean : ∀ e, x = some e → e.dirty = false ∧ e.fresh = false)
    (hflag : c'.flagged = c.flagged.erase o)
    (hcount : c'.dirtyCount = if o ∈ c.flagged then c.dirtyCount - 1 else c.dirtyCount) :
    c'.Tracked where
  nodup := by
    rw [hflag]
    exact h.nodup.erase o
  mem_iff := by
    intro y
    rw [hflag, h.nodup.mem_erase_iff, hfind, h.mem_iff]
    by_cases hy : y = o
    · subst hy
      rw [update_self]
      constructor
      · rintro ⟨hne, -⟩
        exact absurd rfl hne
      · rintro ⟨e, he, hd⟩
        rw [(hclean e he).1] at hd
        cases hd
    · rw [update_of_ne hy]
      exact and_iff_right hy
  count := by rw [hcount, hflag, length_erase, h.count]
  dirty_of_fresh := by
    refine FiniteMap.forall_update hfind h.dirty_of_fresh fun e he hfresh => ?_
    rw [(hclean e he).2] at hfresh
    cases hfresh

theorem congr (hfind : c'.find = c.find) (hflag : c'.flagged = c.flagged)
    (hcount : c'.dirtyCount = c.dirtyCount) : c'.Tracked where
  nodup := hflag ▸ h.nodup
  mem_iff := by
    rw [hflag, hfind]
    exact h.mem_iff
  count := by rw [hcount, hflag, h.count]
  dirty_of_fresh := by
    rw [hfind]
    exact h.dirty_of_fresh

end

end Tracked

/-! ## What each operation leaves -/

/-- What an entry adds to `cachedCoinsUsage`. -/
def usageOf (found : Option CoinsCacheEntry) : ℕ := found.elim 0 fun e => e.coin.dynamicMemoryUsage

/-- What an operation leaves that puts `x` in the place of an entry: the list, the count and the
usage in order. -/
structure Replaced (c c' : CoinsViewCache) (o : OutPoint) (x : Option CoinsCacheEntry) : Prop where
  tracked : c'.Tracked
  find_eq : c'.find = update c.find o x
  usage_eq : usageOf (c.find o) ≤ c.cachedCoinsUsage →
    c'.cachedCoinsUsage + usageOf (c.find o) = c.cachedCoinsUsage + usageOf x

theorem Replaced.refl (h : c.Tracked) {x : Option CoinsCacheEntry} (hx : c.find o = x) :
    Replaced c c o x where
  tracked := h
  find_eq := by rw [← hx, update_eq_self]
  usage_eq _ := by rw [hx]

/-- Two changes of one entry are one. -/
theorem Replaced.trans {c₁ : CoinsViewCache} {x y : Option CoinsCacheEntry}
    (h : Replaced c c₁ o x) (h' : Replaced c₁ c' o y) : Replaced c c' o y where
  tracked := h'.tracked
  find_eq := by rw [h'.find_eq, h.find_eq, update_idem]
  usage_eq hle := by
    have hold := h.usage_eq hle
    have hnew := h'.usage_eq
    rw [h.find_eq, update_self] at hnew
    omega

theorem usage_subUsage (hfind : c.find o = some e) (hle : usageOf (c.find o) ≤ c.cachedCoinsUsage) :
    (c.subUsage e).cachedCoinsUsage + usageOf (c.find o) = c.cachedCoinsUsage := by
  rw [hfind] at hle ⊢
  exact (congrArg (· + _) (trySub_of_le hle)).trans (Nat.sub_add_cancel hle)

section

variable {β : Type} {answer : Option Coin}

/-- The entry `FetchCoin` finds: the cache's own, or a clean one from the view below. -/
def fetched (found : Option CoinsCacheEntry) (answer : Option Coin) : Option CoinsCacheEntry :=
  found.or (answer.map fun coin => { coin })

/-- **`FetchCoin`** leaves what it fetched. -/
theorem fetchCoin_spec (b b' : β) (h : c.Tracked)
    (hanswer : ∀ coin, answer = some coin → coin.isSpent = false) :
    ∃ c', c.fetchCoin o b (.ok (b', answer)) =
        .ok (c', if (c.find o).isSome then b else b', fetched (c.find o) answer) ∧
      Replaced c c' o (fetched (c.find o) answer) ∧ c'.blockHash = c.blockHash := by
  cases hfind : c.find o with
  | some e => exact ⟨c, by simp [fetchCoin, hfind, fetched], .refl h hfind, rfl⟩
  | none =>
    cases answer with
    | none => exact ⟨c, by simp [fetchCoin, hfind, fetched], .refl h hfind, rfl⟩
    | some coin =>
      have hnot := h.not_mem_flagged hfind
      refine ⟨_, by simp [fetchCoin, hfind, fetched, hanswer coin rfl]; rfl,
        ⟨?_, find_insert rfl, fun _ => by rw [hfind]; rfl⟩, by rfl⟩
      refine h.unmark (find_insert rfl) ?_ (erase_of_not_mem hnot).symm (if_neg hnot).symm
      rintro e ⟨rfl⟩
      exact ⟨rfl, rfl⟩

/-- The entry a spent one leaves behind: none if the view below need not be told. -/
def spentEntry (e : CoinsCacheEntry) : Option CoinsCacheEntry :=
  if e.fresh then none else some { coin := {}, dirty := true, fresh := false }

end

/-- A fresh entry that is spent goes. -/
theorem spend_fresh (h : c.Tracked) (hfind : c.find o = some e) (hfresh : e.fresh = true) :
    Replaced c (((c.subDirty e).subUsage e).erase o e) o (spentEntry e) := by
  have hupd : (((c.subDirty e).subUsage e).erase o e).find = update c.find o none := find_erase
  rw [spentEntry, if_pos hfresh]
  refine ⟨h.unmark hupd (by simp) ?_ (h.dirtyCount_subDirty hfind), hupd, usage_subUsage hfind⟩
  simp only [erase, subUsage, subDirty, isFlagged, hfresh, Bool.or_true, if_true]

/-- Any other one stays, dirty and empty. -/
theorem spend_dirty (h : c.Tracked) (hfind : c.find o = some e) (hfresh : e.fresh = false) :
    Replaced c (((c.subDirty e).subUsage e).setDirty o { e with coin := {} }).incDirty o
      (spentEntry e) := by
  have hupd : (((c.subDirty e).subUsage e).setDirty o { e with coin := {} }).incDirty.find =
      update c.find o (some { coin := {}, dirty := true, fresh := false }) := by
    refine (find_addFlags true false).trans ?_
    simp only [hfresh, Bool.or_true]
    rfl
  rw [spentEntry, if_neg (by simp [hfresh])]
  refine ⟨h.mark hupd rfl ?_ (h.dirtyCount_subDirty_succ hfind), hupd, usage_subUsage hfind⟩
  simp only [incDirty, setDirty, addFlags, subUsage, subDirty, isFlagged, hfresh,
    Bool.or_false, h.mem_flagged hfind]

section

variable {β : Type} {answer : Option Coin}

/-- **`SpendCoin`** does one or the other. -/
theorem spendCoin_spec (b b' : β) (h : c.Tracked)
    (hanswer : ∀ coin, answer = some coin → coin.isSpent = false) :
    ∃ c', c.spendCoin o b (.ok (b', answer)) = .ok (c', if (c.find o).isSome then b else b',
          (fetched (c.find o) answer).map coin) ∧
      Replaced c c' o ((fetched (c.find o) answer).bind spentEntry) := by
  obtain ⟨c₁, hfetch, h₁, -⟩ := fetchCoin_spec b b' h hanswer
  rw [spendCoin, hfetch]
  cases hit : fetched (c.find o) answer with
  | none =>
    rw [hit] at h₁
    exact ⟨c₁, rfl, h₁⟩
  | some it =>
    have hat : c₁.find o = some it := by rw [h₁.find_eq, update_self, hit]
    cases hfresh : it.fresh with
    | true => exact ⟨_, by simp [hfresh], h₁.trans (spend_fresh h₁.tracked hat hfresh)⟩
    | false => exact ⟨_, by simp [hfresh], h₁.trans (spend_dirty h₁.tracked hat hfresh)⟩

end

theorem find_setFresh {f : OutPoint → Option CoinsCacheEntry} (fresh : Bool)
    (hfind : c.find = update f o (some e)) : (if fresh then c.setFresh o e else c).find =
      update f o (some { e with fresh := e.fresh || fresh }) := by
  cases fresh with
  | true =>
    refine (find_addFlags false true).trans ?_
    rw [hfind, update_idem, Bool.or_false]
  | false => simpa using hfind

theorem flagged_setFresh (fresh : Bool) (hdirty : e.dirty = true) :
    (if fresh then c.setFresh o e else c).flagged = c.flagged ∧
      (if fresh then c.setFresh o e else c).dirtyCount = c.dirtyCount ∧
      (if fresh then c.setFresh o e else c).cachedCoinsUsage = c.cachedCoinsUsage := by
  cases fresh <;> simp [setFresh, addFlags, isFlagged, hdirty]

/-- The entry `AddCoin` leaves. -/
def addedEntry (found : Option CoinsCacheEntry) (coin : Coin) (possibleOverwrite : Bool) :
    CoinsCacheEntry :=
  { coin, dirty := true,
    fresh := (found.getD {}).fresh || (!possibleOverwrite && !(found.getD {}).dirty) }

/-- **`AddCoin`**, where it does not throw. -/
theorem addCoin_spec {coin : Coin} {possibleOverwrite : Bool} (h : c.Tracked)
    (hspent : coin.isSpent = false) (hspendable : coin.out.scriptPubKey.isUnspendable = false)
    (hover : possibleOverwrite = false → ((c.find o).getD {}).coin.isSpent = true) :
    ∃ c', c.addCoin o coin possibleOverwrite = .ok c' ∧
      Replaced c c' o (some (addedEntry (c.find o) coin possibleOverwrite)) := by
  set it := (c.find o).getD {} with hit
  -- the cache with the entry that was there taken off the counters
  set c₁ := if (c.find o).isSome then (c.subDirty it).subUsage it else c with hc₁
  have hfind₁ : c₁.find = c.find := by rw [hc₁]; split <;> rfl
  have hflag₁ : c₁.flagged = c.flagged := by rw [hc₁]; split <;> rfl
  have hflagged : it.isFlagged = true ↔ o ∈ c.flagged := by
    cases hfound : c.find o with
    | none => simp [hit, hfound, isFlagged, h.not_mem_flagged hfound]
    | some e => simp [hit, hfound, h.isFlagged_eq hfound, h.mem_flagged hfound]
  have hcount₁ : c₁.dirtyCount + 1 =
      if o ∈ c.flagged then c.dirtyCount else c.dirtyCount + 1 := by
    cases hfound : c.find o with
    | none => simp [hc₁, hfound, h.not_mem_flagged hfound]
    | some e =>
      rw [← h.dirtyCount_subDirty_succ hfound]
      simp [hc₁, hit, hfound, subUsage]
  have husage₁ : usageOf (c.find o) ≤ c.cachedCoinsUsage →
      c₁.cachedCoinsUsage + usageOf (c.find o) = c.cachedCoinsUsage := by
    intro hle
    cases hfound : c.find o with
    | none => simp [hc₁, hfound, usageOf]
    | some e => simpa [hc₁, hit, hfound, subUsage, subDirty] using usage_subUsage hfound hle
  set e : CoinsCacheEntry := { it with coin, dirty := true } with he
  set c₂ := (c₁.setDirty o { it with coin }).incDirty with hc₂
  have hfind₂ : c₂.find = update c.find o (some e) := by
    refine (find_addFlags true false).trans ?_
    simp [hfind₁, he]
  set fresh := !possibleOverwrite && !it.dirty with hfresh
  have hfind := find_setFresh fresh hfind₂
  obtain ⟨hflag, hcount, husage⟩ := flagged_setFresh (c := c₂) (e := e) fresh rfl
  refine ⟨(if fresh then c₂.setFresh o e else c₂).addUsage coin, ?_, ?_, hfind, fun hle => ?_⟩
  · have hguard : (!possibleOverwrite && !it.coin.isSpent) = false := by
      cases possibleOverwrite
      · simp [hover rfl]
      · rfl
    simp only [addCoin, hspent, hspendable, Bool.false_eq_true, if_false, ← hit, hguard, ← hc₁,
      ← hc₂, ← hfresh, ← he]
  · refine h.mark hfind rfl (hflag.trans ?_) (hcount.trans hcount₁)
    simp only [hc₂, incDirty, setDirty, addFlags, hflag₁, isFlagged] at hflagged ⊢
    simp [hflagged]
  · rw [addUsage, husage, ← husage₁ hle]
    exact Nat.add_right_comm _ _ _

/-- **`Uncache`** drops a clean entry. -/
theorem uncache_spec (h : c.Tracked) :
    Replaced c (c.uncache o) o ((c.find o).filter fun e => e.dirty) := by
  cases hfind : c.find o with
  | none =>
    simp only [uncache, hfind]
    exact .refl h hfind
  | some e =>
    cases hd : e.dirty with
    | true =>
      rw [filter_some, if_pos hd]
      simp only [uncache, hfind, hd]
      exact .refl h hfind
    | false =>
      rw [filter_some]
      have hupd : ((c.subUsage e).erase o e).find = update c.find o none := find_erase
      have hnot : o ∉ c.flagged := by simp [h.mem_flagged hfind, hd]
      simp only [uncache, hfind, hd]
      refine ⟨h.unmark hupd (by simp) ?_ (if_neg hnot).symm, hupd, usage_subUsage hfind⟩
      simp [erase, h.isFlagged_eq hfind, hd, erase_of_not_mem hnot, subUsage]

/-! ## Writing to a cache, and reading one out -/

variable (it : CoinsCacheEntry)

/-- The entry a dirty entry `it` of the cache above leaves. -/
def writtenEntry : Option CoinsCacheEntry → Option CoinsCacheEntry
  | none => if it.fresh && it.coin.isSpent then none else some { it with dirty := true }
  | some us =>
    if us.fresh && it.coin.isSpent then none
    else some { coin := it.coin, dirty := true, fresh := us.fresh }

/-- An entry the cache does not have comes in dirty, and as fresh as it was. -/
theorem insert_spec (h : c.Tracked) (hfind : c.find o = none) : ∃ c', (if it.fresh then
          (((c.setDirty o { coin := it.coin }).incDirty).addUsage it.coin).setFresh o
            { coin := it.coin, dirty := true }
        else ((c.setDirty o { coin := it.coin }).incDirty).addUsage it.coin) = c' ∧
      Replaced c c' o (some { it with dirty := true }) := by
  have hnot := h.not_mem_flagged hfind
  set e : CoinsCacheEntry := { coin := it.coin, dirty := true } with he
  set c₂ := ((c.setDirty o { coin := it.coin }).incDirty).addUsage it.coin with hc₂
  have hfind₂ : c₂.find = update c.find o (some e) := (find_addFlags true false).trans rfl
  have hupd := find_setFresh it.fresh hfind₂
  obtain ⟨hflag, hcount, husage⟩ := flagged_setFresh (e := e) it.fresh rfl
  refine ⟨_, rfl, h.mark hupd rfl (hflag.trans ?_) (hcount.trans ?_), hupd.trans ?_, fun _ => ?_⟩
  · rw [if_neg hnot]
    rfl
  · rw [if_neg hnot]
    rfl
  · simp [he]
  · rw [husage, hfind]
    rfl

/-- A coin is written over an entry that is there. -/
theorem modify_spec (h : c.Tracked) (hfind : c.find o = some e) (coin : Coin) :
    ∃ c', (if e.dirty then
          { (c.subUsage e).addUsage coin with cacheCoins := c.cacheCoins.insert o { e with coin } }
        else (((c.subUsage e).addUsage coin).setDirty o { e with coin }).incDirty) = c' ∧
      Replaced c c' o (some { coin, dirty := true, fresh := e.fresh }) := by
  have husage : usageOf (c.find o) ≤ c.cachedCoinsUsage →
      (c.subUsage e).cachedCoinsUsage + coin.dynamicMemoryUsage + usageOf (c.find o) =
        c.cachedCoinsUsage + coin.dynamicMemoryUsage := by
    intro hle
    have := usage_subUsage hfind hle
    omega
  refine ⟨_, rfl, ?_⟩
  split_ifs with hd
  · have hmem : o ∈ c.flagged := (h.mem_flagged hfind).mpr hd
    have hupd : Finmap.insert o { e with coin } c.cacheCoins =
        Finmap.insert o { coin, dirty := true, fresh := e.fresh } c.cacheCoins := by rw [hd]
    exact ⟨h.mark (find_insert hupd) rfl (if_pos hmem).symm (if_pos hmem).symm, find_insert hupd,
      husage⟩
  · have hnot : o ∉ c.flagged := fun hmem => hd ((h.mem_flagged hfind).mp hmem)
    have hflag : e.isFlagged = false := by
      rw [h.isFlagged_eq hfind]
      simpa using hd
    have hupd : (((c.subUsage e).addUsage coin).setDirty o { e with coin }).incDirty.find =
        update c.find o (some { coin, dirty := true, fresh := e.fresh }) := by
      refine (find_addFlags true false).trans ?_
      simp only [Bool.or_true, Bool.or_false]
      rfl
    refine ⟨h.mark hupd rfl ?_ (if_neg hnot).symm, hupd, husage⟩
    rw [if_neg hnot]
    exact if_neg (by simpa [isFlagged] using hflag)

/-- **A round of `BatchWrite`**, where no fresh flag is misapplied. -/
theorem writeEntry_spec {it : CoinsCacheEntry} (h : c.Tracked)
    (hmisapplied : ∀ us, c.find o = some us → it.fresh = true → us.coin.isSpent = true) :
    ∃ c', c.writeEntry o it = .ok c' ∧ Replaced c c' o (writtenEntry it (c.find o)) := by
  cases hfind : c.find o with
  | none =>
    by_cases hdrop : (it.fresh && it.coin.isSpent) = true
    · rw [writtenEntry, if_pos hdrop]
      exact ⟨c, by simp only [writeEntry, hfind, hdrop, if_true], .refl h hfind⟩
    obtain ⟨c', hc', hleft⟩ := insert_spec it h hfind
    rw [writtenEntry, if_neg hdrop]
    refine ⟨c', ?_, hleft⟩
    rw [← hc']
    simp only [writeEntry, hfind]
    exact if_neg hdrop
  | some us =>
    have hguard : ¬ (it.fresh && !us.coin.isSpent) = true := by
      intro hg
      obtain ⟨hfresh, hunspent⟩ := Bool.and_eq_true_iff.mp hg
      simp [hmisapplied us hfind hfresh] at hunspent
    by_cases hdrop : (us.fresh && it.coin.isSpent) = true
    · have hfresh : us.fresh = true := (Bool.and_eq_true_iff.mp hdrop).1
      have hleft := spend_fresh h hfind hfresh
      rw [spentEntry, if_pos hfresh] at hleft
      rw [writtenEntry, if_pos hdrop]
      refine ⟨_, ?_, hleft⟩
      simp only [writeEntry, hfind]
      rw [if_neg hguard, if_pos hdrop]
    · obtain ⟨c', hc', hleft⟩ := modify_spec h hfind it.coin
      rw [writtenEntry, if_neg hdrop]
      refine ⟨c', ?_, hleft⟩
      rw [← hc']
      simp only [writeEntry, hfind]
      rw [if_neg hguard, if_neg hdrop]
      rfl

/-- The entry a written one leaves behind: none of a spent one, else a clean one. -/
def cleanedEntry (e : CoinsCacheEntry) : Option CoinsCacheEntry :=
  if e.coin.isSpent then none else some { coin := e.coin }

/-- **The cursor** cleans an entry, or erases it. -/
theorem nextAndMaybeErase_spec (h : c.Tracked) (hfind : c.find o = some e) (hdirty : e.dirty = true)
    (hspent : e.coin.isSpent = true → e.coin.dynamicMemoryUsage = 0) :
    ∃ c', c.nextAndMaybeErase o false e = .ok c' ∧ Replaced c c' o (cleanedEntry e) ∧
      c'.flagged = c.flagged.erase o := by
  have hflag : e.isFlagged = true := (h.isFlagged_eq hfind).trans hdirty
  by_cases hs : e.coin.isSpent = true
  · have hupd : ((c.subDirty e).erase o e).find = update c.find o none := find_erase
    have herase : ((c.subDirty e).erase o e).flagged = c.flagged.erase o := by
      simp only [erase, hflag, if_true, subDirty]
    rw [cleanedEntry, if_pos hs]
    refine ⟨(c.subDirty e).erase o e, ?_,
      ⟨h.unmark hupd (by simp) herase (h.dirtyCount_subDirty hfind), hupd, fun _ => ?_⟩, herase⟩
    · simp only [nextAndMaybeErase, Bool.false_eq_true, if_false, hs, if_true, hspent hs]
    · rw [hfind, usageOf, elim_some, hspent hs]
      rfl
  · have hclean : (c.subDirty e).setClean o e =
        { c.subDirty e with
          cacheCoins := c.cacheCoins.insert o { e with dirty := false, fresh := false }
          flagged := c.flagged.erase o } := by
      simp only [setClean, hflag]
      rfl
    have hupd : ((c.subDirty e).setClean o e).find =
        update c.find o (some { coin := e.coin }) := by
      rw [hclean]
      exact find_insert rfl
    have herase : ((c.subDirty e).setClean o e).flagged = c.flagged.erase o := by rw [hclean]
    rw [cleanedEntry, if_neg hs]
    refine ⟨(c.subDirty e).setClean o e, ?_, ⟨h.unmark hupd ?_ herase ?_, hupd, fun _ => ?_⟩, herase⟩
    · simp [nextAndMaybeErase, hs]
    · rintro e' ⟨rfl⟩
      exact ⟨rfl, rfl⟩
    · rw [hclean]
      exact h.dirtyCount_subDirty hfind
    · rw [hclean, hfind]
      rfl

/-- An empty cache is in order. -/
theorem Tracked.of_empty (hfind : ∀ o, c.find o = none) (hflag : c.flagged = [])
    (hcount : c.dirtyCount = 0) : c.Tracked where
  nodup := by
    rw [hflag]
    exact nodup_nil
  mem_iff := by
    intro o
    rw [hflag, hfind o]
    simp
  count := by rw [hcount, hflag, length_nil]
  dirty_of_fresh := by
    intro o e he
    rw [hfind o] at he
    cases he

end CoinsViewCache

end Quarlcoin.Coins
