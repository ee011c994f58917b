import Quarlcoin.Chain.Tree
/-!
# Where two chains part

`LastCommonAncestor` walks back from two entries of one height, by `pskip` while that leads
to different entries and by `pprev` where it does not. In a tree with one genesis block it
arrives at the highest ancestor of both.
-/

namespace Quarlcoin

namespace Links

open Option Links

variable {ι : Type} (l : Links ι)

/-- The entry `f` is on the chain that ends in `i`. -/
def OnChain (f i : ι) : Prop := ∃ n, l.back n (some i) = some f

theorem onChain_self (i : ι) : l.OnChain i i := ⟨0, rfl⟩

variable {l}

theorem OnChain.trans {f i j : ι} (h : l.OnChain f i) (h' : l.OnChain i j) : l.OnChain f j := by
  obtain ⟨n, hn⟩ := h
  obtain ⟨m, hm⟩ := h'
  exact ⟨m + n, by rw [back_add, hm, hn]⟩

theorem onChain_of_pprev {i p : ι} (h : l.pprev i = some p) : l.OnChain p i :=
  ⟨1, by rw [back_succ_some, h, back_zero]⟩

/-- What is on the chain of an entry is the entry or on the chain of its parent. -/
theorem OnChain.eq_or_pprev {f i : ι} (h : l.OnChain f i) :
    f = i ∨ ∃ p, l.pprev i = some p ∧ l.OnChain f p := by
  obtain ⟨n, hn⟩ := h
  cases n with
  | zero => exact .inl (some.inj hn).symm
  | succ n =>
    rw [back_succ_some] at hn
    cases hp : l.pprev i with
    | none =>
      rw [hp, back_none] at hn
      cases hn
    | some p =>
      rw [hp] at hn
      exact .inr ⟨p, rfl, n, hn⟩

variable (l) [DecidableEq ι]

/-- The inner loop of `LastCommonAncestor`; `none` where it would follow a null pointer. -/
def skipLoop : ℕ → ι → ι → Option (ι × ι)
  | 0, _, _ => none
  | fuel + 1, pa, pb =>
    if l.pskip pa = l.pskip pb then some (pa, pb)
    else
      match l.pskip pa, l.pskip pb with
      | some pa, some pb => skipLoop fuel pa pb
      | _, _ => none

def commonLoop : ℕ → ι → ι → Option ι
  | 0, _, _ => none
  | fuel + 1, pa, pb =>
    if pa = pb then some pa
    else
      match l.skipLoop (l.nHeight pa + 1) pa pb with
      | none => none
      | some (pa, pb) =>
        match l.pprev pa, l.pprev pb with
        | some pa, some pb => commonLoop fuel pa pb
        | _, _ => none

/-- `LastCommonAncestor`; `none` is the null pointer. -/
def lastCommonAncestor (pa pb : ι) : Option ι :=
  if l.nHeight pb < l.nHeight pa then
    (l.getAncestor pa (l.nHeight pb)).bind fun pa => l.commonLoop (l.nHeight pb + 1) pa pb
  else if l.nHeight pa < l.nHeight pb then
    (l.getAncestor pb (l.nHeight pa)).bind fun pb => l.commonLoop (l.nHeight pa + 1) pa pb
  else l.commonLoop (l.nHeight pa + 1) pa pb

end Links

namespace BlockTree

open Links

variable {ι : Type} (t : BlockTree ι)

def OneGenesis : Prop := ∀ i j, t.pprev i = none → t.pprev j = none → i = j

/-- **`pskip` leads down the chain**, to the height that `GetSkipHeight` gives. -/
theorem pskip_eq_some {i p : ι} (hp : t.pprev i = some p) :
    ∃ skip, t.pskip i = some skip ∧ t.OnChain skip i ∧
      t.nHeight skip = getSkipHeight (t.nHeight i) := by
  have hheight := t.height_child i p hp
  have hlt : getSkipHeight (t.nHeight i) < t.nHeight i := getSkipHeight_lt (by omega)
  have hskip := t.skip_child i p hp
  rw [t.getAncestor_eq_back (by omega)] at hskip
  obtain ⟨skip, hback, hat⟩ := t.exists_back (x := some p)
    (n := t.nHeight p - getSkipHeight (t.nHeight i)) (by rw [nextHeight_some]; omega)
  rw [nextHeight_some] at hat
  exact ⟨skip, by rw [hskip, hback], OnChain.trans ⟨_, hback⟩ (onChain_of_pprev hp), by omega⟩

section

variable {t} {f i g pa pb : ι}

theorem nHeight_le_of_onChain (h : t.OnChain f i) : t.nHeight f ≤ t.nHeight i := by
  obtain ⟨n, hn⟩ := h
  have hheight := t.nextHeight_back n (some i)
  rw [hn, nextHeight_some, nextHeight_some] at hheight
  omega

theorem getAncestor_of_onChain (h : t.OnChain f i) : t.getAncestor i (t.nHeight f) = some f := by
  obtain ⟨n, hn⟩ := h
  have hheight := t.nextHeight_back n (some i)
  rw [hn, nextHeight_some, nextHeight_some] at hheight
  rw [t.getAncestor_eq_back (by omega), ← hn]
  congr 1
  omega

/-- Of two entries of a chain the lower one is on the chain of the other. -/
theorem onChain_of_nHeight_le (hf : t.OnChain f i) (hg : t.OnChain g i)
    (hle : t.nHeight f ≤ t.nHeight g) : t.OnChain f g := by
  obtain ⟨n, hn⟩ := hf
  obtain ⟨m, hm⟩ := hg
  have hfi := t.nextHeight_back n (some i)
  have hgi := t.nextHeight_back m (some i)
  rw [hn, nextHeight_some, nextHeight_some] at hfi
  rw [hm, nextHeight_some, nextHeight_some] at hgi
  exact ⟨n - m, by rw [← hm, ← back_add, show m + (n - m) = n by omega, hn]⟩

theorem eq_of_onChain (h : t.OnChain f g) (hheight : t.nHeight f = t.nHeight g) : f = g := by
  obtain rfl | ⟨p, hp, hfp⟩ := h.eq_or_pprev
  · rfl
  · have hle := nHeight_le_of_onChain hfp
    have := t.height_child g p hp
    omega

/-- **Where two chains have different entries of one height**, what they have in
common is below. -/
theorem nHeight_lt_of_common {qa qb : ι} (hqa : t.OnChain qa pa) (hqb : t.OnChain qb pb)
    (hne : qa ≠ qb) (hheight : t.nHeight qa = t.nHeight qb) (hga : t.OnChain g pa)
    (hgb : t.OnChain g pb) : t.nHeight g < t.nHeight qa := by
  by_contra hle
  -- otherwise both are on the chain of the common entry, at one height
  have ha := onChain_of_nHeight_le hqa hga (by omega)
  have hb := onChain_of_nHeight_le hqb hgb (by omega)
  exact hne (eq_of_onChain (onChain_of_nHeight_le ha hb hheight.le) hheight)

/-- Two entries of one height have a parent both. -/
theorem OneGenesis.exists_pprev (h : t.OneGenesis) (hne : pa ≠ pb)
    (hheight : t.nHeight pa = t.nHeight pb) :
    ∃ qa qb, t.pprev pa = some qa ∧ t.pprev pb = some qb := by
  cases ha : t.pprev pa with
  | none =>
    cases hb : t.pprev pb with
    | none => exact absurd (h pa pb ha hb) hne
    | some qb =>
      have hat := t.height_child pb qb hb
      rw [← hheight, t.height_genesis pa ha] at hat
      omega
  | some qa =>
    cases hb : t.pprev pb with
    | none =>
      have hat := t.height_child pa qa ha
      rw [hheight, t.height_genesis pb hb] at hat
      omega
    | some qb => exact ⟨qa, qb, rfl, rfl⟩

theorem exists_getAncestor {height : ℕ} (hle : height ≤ t.nHeight i) :
    ∃ a, t.getAncestor i height = some a ∧ t.OnChain a i ∧ t.nHeight a = height := by
  obtain ⟨a, hback, hat⟩ := t.exists_back (x := some i) (n := t.nHeight i - height)
    (by rw [nextHeight_some]; omega)
  rw [nextHeight_some] at hat
  exact ⟨a, by rw [t.getAncestor_eq_back hle, hback], ⟨_, hback⟩, by omega⟩

variable [DecidableEq ι] (h : t.OneGenesis)
include h

/-- **The inner loop** ends with two different entries of one height. -/
theorem OneGenesis.skipLoop_spec {fuel : ℕ} (hne : pa ≠ pb)
    (hheight : t.nHeight pa = t.nHeight pb) (hfuel : t.nHeight pa < fuel) :
    ∃ qa qb, t.skipLoop fuel pa pb = some (qa, qb) ∧ qa ≠ qb ∧ t.nHeight qa = t.nHeight qb ∧
      t.nHeight qa ≤ t.nHeight pa ∧ t.OnChain qa pa ∧ t.OnChain qb pb := by
  induction fuel generalizing pa pb with
  | zero => omega
  | succ fuel ih =>
    rw [skipLoop]
    split_ifs with hskip
    · exact ⟨pa, pb, rfl, hne, hheight, le_rfl, t.onChain_self pa, t.onChain_self pb⟩
    obtain ⟨ppa, ppb, hpa, hpb⟩ := h.exists_pprev hne hheight
    obtain ⟨sa, hsa, hona, hata⟩ := t.pskip_eq_some hpa
    obtain ⟨sb, hsb, honb, hatb⟩ := t.pskip_eq_some hpb
    have hlt : getSkipHeight (t.nHeight pa) < t.nHeight pa :=
      getSkipHeight_lt (by have := t.height_child pa ppa hpa; omega)
    rw [hsa, hsb] at hskip ⊢
    obtain ⟨qa, qb, hloop, hq, hqheight, hle, hqa, hqb⟩ :=
      ih (fun heq => hskip (congrArg some heq)) (by rw [hata, hatb, hheight]) (by omega)
    exact ⟨qa, qb, hloop, hq, hqheight, by omega, hqa.trans hona, hqb.trans honb⟩

/-- **The outer loop** ends on both chains, above everything they have in common. -/
theorem OneGenesis.commonLoop_spec {fuel : ℕ}
    (hheight : t.nHeight pa = t.nHeight pb) (hfuel : t.nHeight pa < fuel) :
    ∃ f, t.commonLoop fuel pa pb = some f ∧ t.OnChain f pa ∧ t.OnChain f pb ∧
      ∀ g, t.OnChain g pa → t.OnChain g pb → t.OnChain g f := by
  induction fuel generalizing pa pb with
  | zero => omega
  | succ fuel ih =>
    rw [commonLoop]
    split
    · rename_i heq
      subst heq
      exact ⟨pa, rfl, t.onChain_self pa, t.onChain_self pa, fun g hg _ => hg⟩
    rename_i hne
    obtain ⟨qa, qb, hloop, hq, hqheight, hle, hqa, hqb⟩ :=
      h.skipLoop_spec hne hheight (Nat.lt_succ_self _)
    obtain ⟨ra, rb, hra, hrb⟩ := h.exists_pprev hq hqheight
    have hata := t.height_child qa ra hra
    have hatb := t.height_child qb rb hrb
    have hsame : t.nHeight ra = t.nHeight rb := by omega
    obtain ⟨f, hf, hfa, hfb, hhigh⟩ := ih hsame (by omega)
    have hra' := (onChain_of_pprev hra).trans hqa
    have hrb' := (onChain_of_pprev hrb).trans hqb
    refine ⟨f, ?_, hfa.trans hra', hfb.trans hrb', fun g hga hgb => ?_⟩
    · simp only [hloop, hra, hrb, hf]
    · have hlt := nHeight_lt_of_common hqa hqb hq hqheight hga hgb
      exact hhigh g (onChain_of_nHeight_le hga hra' (by omega))
        (onChain_of_nHeight_le hgb hrb' (by omega))

/-- **`LastCommonAncestor` arrives at the highest ancestor of both.** -/
theorem OneGenesis.exists_lastCommonAncestor (pa pb : ι) :
    ∃ f, t.lastCommonAncestor pa pb = some f ∧ t.OnChain f pa ∧ t.OnChain f pb ∧
      ∀ g, t.OnChain g pa → t.OnChain g pb → t.OnChain g f := by
  rw [lastCommonAncestor]
  split
  · rename_i hlt
    obtain ⟨qa, hget, hqa, hat⟩ := exists_getAncestor hlt.le
    have hfuel : t.nHeight qa < t.nHeight pb + 1 := by omega
    obtain ⟨f, hf, hfa, hfb, hhigh⟩ := h.commonLoop_spec hat hfuel
    refine ⟨f, by rw [hget, Option.bind_some, hf], hfa.trans hqa, hfb, fun g hga hgb => ?_⟩
    have hle := nHeight_le_of_onChain hgb
    exact hhigh g (onChain_of_nHeight_le hga hqa (by omega)) hgb
  · split_ifs with hlt
    · obtain ⟨qb, hget, hqb, hat⟩ := exists_getAncestor hlt.le
      obtain ⟨f, hf, hfa, hfb, hhigh⟩ := h.commonLoop_spec hat.symm (Nat.lt_succ_self _)
      refine ⟨f, by rw [hget, Option.bind_some, hf], hfa, hfb.trans hqb, fun g hga hgb => ?_⟩
      have hle := nHeight_le_of_onChain hga
      exact hhigh g hga (onChain_of_nHeight_le hgb hqb (by omega))
    · exact h.commonLoop_spec (by omega) (Nat.lt_succ_self _)

end

/-- **The skip list is exact.** `GetAncestor` finds the entry that `pprev` leads to,
`LastCommonAncestor` the highest ancestor of both. -/
theorem skipList_exact [DecidableEq ι] (t : BlockTree ι) (hone : t.OneGenesis) : (∀ i (height : ℤ),
      if 0 ≤ height ∧ height ≤ t.nHeight i then ∃ a, t.getAncestor i height = some a ∧
          t.back (t.nHeight i - height.toNat) (some i) = some a ∧ t.nHeight a = height
      else t.getAncestor i height = none) ∧
    ∀ pa pb, ∃ f, t.lastCommonAncestor pa pb = some f ∧ t.OnChain f pa ∧ t.OnChain f pb ∧
      ∀ g, t.OnChain g pa → t.OnChain g pb → t.nHeight g ≤ t.nHeight f := by
  refine ⟨fun i height => ?_, fun pa pb => ?_⟩
  · split_ifs with hrange
    · obtain ⟨n, rfl⟩ := Int.eq_ofNat_of_zero_le hrange.1
      have hle : n ≤ t.nHeight i := by omega
      obtain ⟨a, hget, -, hat⟩ := exists_getAncestor hle
      refine ⟨a, hget, ?_, by rw [hat]⟩
      rw [Int.toNat_natCast, ← t.getAncestor_eq_back hle, hget]
    · rw [getAncestor, if_pos (by omega)]
  · obtain ⟨f, hf, hfa, hfb, hhigh⟩ := hone.exists_lastCommonAncestor pa pb
    exact ⟨f, hf, hfa, hfb, fun g hga hgb => nHeight_le_of_onChain (hhigh g hga hgb)⟩

end BlockTree

def forkTree : BlockTree (Fin 3) where
  pprev i := if i = 0 then none else some 0
  pskip i := if i = 0 then none else some 0
  nHeight i := if i = 0 then 0 else 1
  nTime _ := 0
  height_genesis := by decide
  height_child := by decide
  skip_genesis := by decide
  skip_child := by decide

theorem forkTree_skipList :
    ∃ f, forkTree.lastCommonAncestor 1 2 = some f ∧ forkTree.nHeight 0 ≤ forkTree.nHeight f := by
  have hone : forkTree.OneGenesis := by unfold BlockTree.OneGenesis; decide
  obtain ⟨f, hf, -, -, hhigh⟩ := (BlockTree.skipList_exact forkTree hone).2 1 2
  exact ⟨f, hf, hhigh 0 ⟨1, rfl⟩ ⟨1, rfl⟩⟩

end Quarlcoin
