import Quarlcoin.Chain.Fork
/-!
# The active chain

`CChain` of `chain.h` keeps the entries of a chain by height. `SetTip` goes back from the
new tip to the first entry that is in its place, `FindFork` to the first that the chain
contains. A locator names entries for a node that may not know all of them.
-/

namespace Quarlcoin

open Links BlockTree

namespace Links

variable {ι : Type} (l : Links ι)

def Contains (vChain : List (Option ι)) (index : ι) : Prop :=
  vChain[l.nHeight index]? = some (some index)

variable [DecidableEq ι]

instance (vChain : List (Option ι)) (index : ι) : Decidable (l.Contains vChain index) :=
  inferInstanceAs (Decidable (_ = _))

def setTipLoop : ℕ → Option ι → List (Option ι) → List (Option ι)
  | fuel + 1, some i, vChain =>
    if l.Contains vChain i then vChain
    else setTipLoop fuel (l.pprev i) (vChain.set (l.nHeight i) (some i))
  | _, _, vChain => vChain

/-- `SetTip`, from the vector that is resized with null pointers. -/
def setTip (vChain : List (Option ι)) (block : ι) : List (Option ι) :=
  l.setTipLoop (l.nHeight block + 1) (some block)
    ((List.range (l.nHeight block + 1)).map (vChain.getD · none))

def findForkLoop (vChain : List (Option ι)) : ℕ → Option ι → Option ι
  | fuel + 1, some i =>
    if l.Contains vChain i then some i else findForkLoop vChain fuel (l.pprev i)
  | _, _ => none

def findFork (vChain : List (Option ι)) (index : ι) : Option ι :=
  l.findForkLoop vChain (l.nHeight index + 1) <|
    if vChain.length ≤ l.nHeight index then l.getAncestor index (vChain.length - 1)
    else some index

def locatorLoop : ℕ → ℕ → ℕ → ι → List ι
  | 0, _, _, _ => []
  | fuel + 1, size, step, i =>
    i :: if l.nHeight i = 0 then []
      else ((l.getAncestor i (l.nHeight i - step : ℕ)).map
        (locatorLoop fuel (size + 1) (if 10 < size + 1 then 2 * step else step))).getD []

variable {H : Type}

/-- `LocatorEntries`: steps back that get larger, and the genesis block. -/
def locatorEntries (getBlockHash : ι → H) (index : ι) : List H :=
  (l.locatorLoop (l.nHeight index + 1) 0 1 index).map getBlockHash

def findForkInGlobalIndex (lookupBlockIndex : H → Option ι) (vChain : List (Option ι)) :
    List H → Option ι
  | [] => vChain.head?.join
  | hash :: vHave =>
    match lookupBlockIndex hash with
    | none => findForkInGlobalIndex lookupBlockIndex vChain vHave
    | some pindex =>
      if l.Contains vChain pindex then some pindex
      else if l.getAncestor pindex (vChain.length - 1) = vChain.getLast?.join then
        vChain.getLast?.join
      else findForkInGlobalIndex lookupBlockIndex vChain vHave

end Links

namespace BlockTree

variable {ι : Type} [DecidableEq ι] {t : BlockTree ι} {vChain : List (Option ι)} {i tip : ι}

/-- **The vector is the chain of a tip.** -/
structure IsChainOf (t : BlockTree ι) (tip : ι) (vChain : List (Option ι)) : Prop where
  length_eq : vChain.length = t.nHeight tip + 1
  contains_iff : ∀ j, t.Contains vChain j ↔ t.OnChain j tip

/-- Up to a height, the entries below one that is in its place are in theirs. -/
def Settled (t : BlockTree ι) (vChain : List (Option ι)) (height : ℕ) : Prop :=
  ∀ j, t.nHeight j ≤ height → t.Contains vChain j → ∀ f, t.OnChain f j → t.Contains vChain f

/-- **The loop of `SetTip`** may stop at an entry that is in its place; what is above the entry
it starts from, it leaves alone. -/
theorem setTipLoop_spec {fuel : ℕ} (hfuel : t.nHeight i < fuel) (hlen : t.nHeight i < vChain.length)
    (hlow : Settled t vChain (t.nHeight i)) :
    (t.setTipLoop fuel (some i) vChain).length = vChain.length ∧
    (∀ f, t.OnChain f i → t.Contains (t.setTipLoop fuel (some i) vChain) f) ∧
    ∀ k, t.nHeight i < k → (t.setTipLoop fuel (some i) vChain)[k]? = vChain[k]? := by
  induction fuel generalizing i vChain with
  | zero => omega
  | succ fuel ih =>
    rw [setTipLoop]
    split_ifs with hin
    · exact ⟨rfl, hlow i le_rfl hin, fun _ _ => rfl⟩
    have hself : t.Contains (vChain.set (t.nHeight i) (some i)) i := List.getElem?_set_self hlen
    have hother : ∀ k, t.nHeight i ≠ k →
        (vChain.set (t.nHeight i) (some i))[k]? = vChain[k]? := fun _ hne => List.getElem?_set_ne hne
    cases hp : t.pprev i with
    | none =>
      have hstop : t.setTipLoop fuel none (vChain.set (t.nHeight i) (some i)) =
          vChain.set (t.nHeight i) (some i) := by cases fuel <;> rfl
      rw [hstop]
      refine ⟨List.length_set, fun f hf => ?_, fun k hk => hother k hk.ne⟩
      obtain rfl | ⟨p, hp', -⟩ := hf.eq_or_pprev
      · exact hself
      · cases hp.symm.trans hp'
    | some p =>
      have hheight := t.height_child i p hp
      have hlow' : Settled t (vChain.set (t.nHeight i) (some i)) (t.nHeight p) := by
        intro j hj hin' f hf
        have hfj := nHeight_le_of_onChain hf
        rw [Contains, hother _ (by omega)] at hin' ⊢
        exact hlow j (by omega) hin' f hf
      obtain ⟨hlength, hchain, habove⟩ := ih (by omega) (by rw [List.length_set]; omega) hlow'
      refine ⟨hlength.trans List.length_set, fun f hf => ?_, fun k hk => ?_⟩
      · obtain rfl | ⟨p', hp', hf⟩ := hf.eq_or_pprev
        · rw [Contains, habove _ (by omega)]
          exact hself
        · exact hchain f (Option.some.inj (hp.symm.trans hp') ▸ hf)
      · rw [habove k (by omega), hother k hk.ne]

omit [DecidableEq ι] in
/-- A vector that holds the entries of a chain holds no others. -/
theorem IsChainOf.of_contains (hlen : vChain.length = t.nHeight tip + 1)
    (h : ∀ f, t.OnChain f tip → t.Contains vChain f) : IsChainOf t tip vChain := by
  refine ⟨hlen, fun j => ⟨fun hj => ?_, h j⟩⟩
  have hlt := (List.getElem?_eq_some_iff.1 hj).1
  have hle : t.nHeight j ≤ t.nHeight tip := by omega
  obtain ⟨a, -, ha, hat⟩ := exists_getAncestor hle
  have hplace := h a ha
  rw [Contains, hat, hj] at hplace
  exact Option.some.inj (Option.some.inj hplace) ▸ ha

/-- **`SetTip` makes the chain of the new tip** of that of any other, and of none. -/
theorem isChainOf_setTip (h : vChain = [] ∨ ∃ tip, IsChainOf t tip vChain) (block : ι) :
    IsChainOf t block (t.setTip vChain block) := by
  set resized := (List.range (t.nHeight block + 1)).map (vChain.getD · none) with hresized
  have hlen : resized.length = t.nHeight block + 1 := by simp [hresized]
  have hcontains : ∀ j, t.nHeight j ≤ t.nHeight block →
      (t.Contains resized j ↔ t.Contains vChain j) := by
    intro j hj
    have hlt : t.nHeight j < t.nHeight block + 1 := by omega
    rw [Contains, Contains, hresized, List.getElem?_map, List.getElem?_range hlt, Option.map_some,
      List.getD_eq_getElem?_getD]
    cases vChain[t.nHeight j]? <;> simp
  have hlow : Settled t resized (t.nHeight block) := by
    intro j hj hin f hf
    have hfj := nHeight_le_of_onChain hf
    rw [hcontains j hj] at hin
    rw [hcontains f (by omega)]
    obtain rfl | ⟨tip, h⟩ := h
    · cases hin
    · exact (h.contains_iff f).2 (hf.trans ((h.contains_iff j).1 hin))
  obtain ⟨hlength, hchain, -⟩ := setTipLoop_spec (Nat.lt_succ_self _) (by omega) hlow
  exact .of_contains (hlength.trans hlen) hchain

/-- **`FindFork` is `LastCommonAncestor`** of the tip and the entry. -/
theorem IsChainOf.findFork_eq (h : IsChainOf t tip vChain) (hone : t.OneGenesis) (index : ι) :
    t.findFork vChain index = t.lastCommonAncestor tip index := by
  obtain ⟨f, hf, hft, hfi, hhigh⟩ := hone.exists_lastCommonAncestor tip index
  -- from any entry above the fork the loop comes down to it
  have hloop : ∀ fuel q, t.nHeight q < fuel → t.OnChain q index → t.OnChain f q →
      t.findForkLoop vChain fuel (some q) = some f := by
    intro fuel
    induction fuel with
    | zero => omega
    | succ fuel ih =>
      intro q hfuel hq hfq
      rw [findForkLoop]
      split_ifs with hin
      · have hqf := hhigh q ((h.contains_iff q).1 hin) hq
        exact congrArg some (eq_of_onChain hqf (le_antisymm (nHeight_le_of_onChain hqf)
          (nHeight_le_of_onChain hfq)))
      · obtain rfl | ⟨p, hp, hfp⟩ := hfq.eq_or_pprev
        · exact absurd ((h.contains_iff f).2 hft) hin
        · have := t.height_child q p hp
          rw [hp]
          exact ih p (by omega) ((onChain_of_pprev hp).trans hq) hfp
  rw [findFork, hf, h.length_eq]
  split_ifs with hlong
  · have hlow : t.nHeight tip ≤ t.nHeight index := by omega
    obtain ⟨q, hget, hq, hat⟩ := exists_getAncestor hlow
    have hle := nHeight_le_of_onChain hft
    rw [show ((t.nHeight tip + 1 : ℕ) : ℤ) - 1 = t.nHeight tip by omega, hget]
    exact hloop _ q (by omega) hq (onChain_of_nHeight_le hfi hq (by omega))
  · exact hloop _ index (Nat.lt_succ_self _) (t.onChain_self index) hfi

/-- What `CChain` holds when tips were set one after another. -/
theorem isChainOf_run (t : BlockTree ι) (tips : List ι) (tip : ι) :
    IsChainOf t tip ((tips ++ [tip]).foldl t.setTip []) := by
  rw [List.foldl_append]
  exact isChainOf_setTip (List.foldlRecOn (motive := fun v => v = [] ∨ ∃ tip, IsChainOf t tip v)
    tips t.setTip (.inl rfl) fun _ h tip _ => .inr ⟨tip, isChainOf_setTip h tip⟩) tip

/-- **The active chain is exact.** `CChain` holds the chain of the last tip that was set, and
`FindFork` gives where a chain parts from it. -/
theorem activeChain_exact (t : BlockTree ι) (hone : t.OneGenesis) (tips : List ι) (tip : ι) :
    let vChain := (tips ++ [tip]).foldl t.setTip []
    vChain.length = t.nHeight tip + 1 ∧ (∀ j, t.Contains vChain j ↔ t.OnChain j tip) ∧
      ∀ index, t.findFork vChain index = t.lastCommonAncestor tip index := by
  have h := isChainOf_run t tips tip
  exact ⟨h.length_eq, h.contains_iff, h.findFork_eq hone⟩

theorem activeChain_exact_fork : forkTree.OneGenesis ∧
    forkTree.findFork ([1, 0, 2].foldl forkTree.setTip []) 1 = forkTree.lastCommonAncestor 2 1 := by
  have hone : forkTree.OneGenesis := by unfold OneGenesis; decide
  exact ⟨hone, (activeChain_exact forkTree hone [1, 0] 2).2.2 1⟩

/-! ## Locators -/

variable {H : Type} {a : ι}

omit [DecidableEq ι] in
theorem IsChainOf.getLast (h : IsChainOf t tip vChain) : vChain.getLast?.join = some tip := by
  have htip := (h.contains_iff tip).2 (t.onChain_self tip)
  rw [List.getLast?_eq_getElem?, h.length_eq, Nat.add_sub_cancel, htip]
  rfl

/-- The step is no larger than the depth by more than one, so the first entry at the fork or below
it is not much deeper. -/
theorem IsChainOf.findFork_locator (h : IsChainOf t tip vChain) {getBlockHash : ι → H}
    {lookupBlockIndex : H → Option ι}
    (hsound : ∀ i j, lookupBlockIndex (getBlockHash i) = some j → j = i)
    (hknown : ∀ i, t.OnChain i tip → lookupBlockIndex (getBlockHash i) = some i) {fork : ι}
    (hft : t.OnChain fork tip) (hfa : t.OnChain fork a)
    (hhigh : ∀ g, t.OnChain g tip → t.OnChain g a → t.OnChain g fork) :
    ∀ fuel size step i, t.nHeight i < fuel → t.OnChain i a → 0 < step →
      (t.nHeight i ≠ 0 → step ≤ t.nHeight a - t.nHeight i + 1) →
      t.nHeight a - t.nHeight i ≤ 2 * (t.nHeight a - t.nHeight fork) →
      ∃ found, t.findForkInGlobalIndex lookupBlockIndex vChain
          ((t.locatorLoop fuel size step i).map getBlockHash) = some found ∧ t.OnChain found fork ∧
          t.nHeight a - t.nHeight found ≤ 2 * (t.nHeight a - t.nHeight fork) := by
  intro fuel
  induction fuel with
  | zero => omega
  | succ fuel ih =>
    intro size step i hfuel hi hstep hle hdepth
    have hia := nHeight_le_of_onChain hi
    rw [locatorLoop, List.map_cons, findForkInGlobalIndex]
    by_cases hin : t.OnChain i tip
    · simp only [hknown i hin, (h.contains_iff i).2 hin, if_true]
      exact ⟨i, rfl, hhigh i hin hi, hdepth⟩
    -- above the fork the locator goes on, with a step that was not too large
    have hfork : t.nHeight fork < t.nHeight i := by
      by_contra hlow
      exact hin ((onChain_of_nHeight_le hi hfa (not_lt.1 hlow)).trans hft)
    have hback : t.nHeight i - step ≤ t.nHeight i := Nat.sub_le ..
    obtain ⟨p, hget, hp, hat⟩ := exists_getAncestor hback
    rw [if_neg (by omega), hget, Option.map_some, Option.getD_some]
    generalize hdouble : (if 10 < size + 1 then 2 * step else step) = step'
    have hstep' : 0 < step' ∧ step' ≤ 2 * step := by
      split_ifs at hdouble <;> omega
    obtain ⟨found, hfound, hrest⟩ := ih (size + 1) step' p (by omega) (hp.trans hi) hstep'.1
      (by omega) (by omega)
    cases hlook : lookupBlockIndex (getBlockHash i) with
    | none => exact ⟨found, hfound, hrest⟩
    | some j =>
      obtain rfl := hsound i j hlook
      dsimp only
      rw [if_neg (mt (h.contains_iff j).1 hin), h.getLast, h.length_eq]
      split_ifs with hdeep
      · -- the tip is below the entry, so that it is the fork
        have htip : t.OnChain tip j := by
          rcases le_or_gt (t.nHeight tip) (t.nHeight j) with hle' | hgt
          · obtain ⟨q, hgetq, hq, -⟩ := exists_getAncestor hle'
            rw [show ((t.nHeight tip + 1 : ℕ) : ℤ) - 1 = t.nHeight tip by omega, hgetq] at hdeep
            exact Option.some.inj hdeep ▸ hq
          · rw [getAncestor, if_pos (by omega)] at hdeep
            cases hdeep
        have htf := hhigh tip (t.onChain_self tip) (htip.trans hi)
        have := nHeight_le_of_onChain htf
        have := nHeight_le_of_onChain hft
        exact ⟨tip, rfl, htf, by omega⟩
      · exact ⟨found, hfound, hrest⟩

/-- **A locator finds the fork**: a block of both chains, at most twice as deep as the place where
they part. -/
theorem locator_finds_fork (t : BlockTree ι) (hone : t.OneGenesis) (getBlockHash : ι → H)
    (lookupBlockIndex : H → Option ι)
    (hsound : ∀ i j, lookupBlockIndex (getBlockHash i) = some j → j = i) (tips : List ι)
    (tip index : ι) (hknown : ∀ i, t.OnChain i tip → lookupBlockIndex (getBlockHash i) = some i) :
    ∃ fork found, t.lastCommonAncestor tip index = some fork ∧
      t.findForkInGlobalIndex lookupBlockIndex ((tips ++ [tip]).foldl t.setTip [])
        (t.locatorEntries getBlockHash index) = some found ∧ t.OnChain found fork ∧
      t.nHeight index - t.nHeight found ≤ 2 * (t.nHeight index - t.nHeight fork) := by
  obtain ⟨fork, hfork, hft, hfi, hhigh⟩ := hone.exists_lastCommonAncestor tip index
  obtain ⟨found, hfound⟩ := (isChainOf_run t tips tip).findFork_locator hsound hknown hft hfi hhigh
    _ 0 1 index (Nat.lt_succ_self _) (t.onChain_self index) Nat.one_pos (by omega) (by omega)
  exact ⟨fork, found, hfork, hfound⟩

theorem locator_finds_fork_children : ∃ fork found, forkTree.lastCommonAncestor 2 1 = some fork ∧
      forkTree.findForkInGlobalIndex some ([1, 2].foldl forkTree.setTip [])
        (forkTree.locatorEntries id 1) = some found ∧ forkTree.OnChain found fork ∧
      1 - forkTree.nHeight found ≤ 2 * (1 - forkTree.nHeight fork) :=
  locator_finds_fork forkTree (by unfold OneGenesis; decide) id some
    (fun _ _ h => (Option.some.inj h).symm) [1] 2 1 fun _ _ => rfl

end BlockTree

end Quarlcoin
