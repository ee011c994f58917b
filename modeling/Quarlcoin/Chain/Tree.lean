import Mathlib.Tactic.Ring
import Quarlcoin.Common.Median
/-!
# The tree of block index entries

`CBlockIndex` as a node of a tree. A pointer to an entry is a value of a type `ι`, and
`none` is the null pointer. `Links` holds the members as they are; a `BlockTree` is what
`AddToBlockIndex` makes of them. `GetAncestor` finds by the skip list what `pprev` alone
would lead to (`BlockTree.getAncestor_eq_back`).
-/

namespace Quarlcoin

open List Nat

/-- The members of `CBlockIndex` that link the entries. -/
structure Links (ι : Type) where
  pprev : ι → Option ι
  pskip : ι → Option ι
  nHeight : ι → ℕ
  nTime : ι → UInt32

def invertLowestOne (n : ℕ) : ℕ := n &&& (n - 1)

def getSkipHeight (height : ℕ) : ℕ :=
  if height < 2 then 0
  else if height % 2 = 1 then invertLowestOne (invertLowestOne (height - 1)) + 1
  else invertLowestOne height

namespace Links

variable {ι : Type} (l : Links ι)

/-- The test of `GetAncestor` whether `pskip` is the better way down. -/
def FollowSkip (height heightWalk : ℕ) : Prop :=
  getSkipHeight heightWalk = height ∨
    (height < getSkipHeight heightWalk ∧
      ¬ (getSkipHeight (heightWalk - 1) + 2 < getSkipHeight heightWalk ∧
        height ≤ getSkipHeight (heightWalk - 1)))

instance (height heightWalk : ℕ) : Decidable (FollowSkip height heightWalk) :=
  inferInstanceAs (Decidable (_ ∨ _))

/-- The loop of `GetAncestor`. A null `pprev` is the assertion in it. -/
def ancestorLoop (height : ℕ) : ℕ → ι → ℕ → Option ι
  | 0, _, _ => none
  | fuel + 1, walk, heightWalk =>
    if heightWalk ≤ height then some walk
    else
      match l.pskip walk with
      | none => (l.pprev walk).bind fun p => ancestorLoop height fuel p (heightWalk - 1)
      | some skip =>
        if FollowSkip height heightWalk then
          ancestorLoop height fuel skip (getSkipHeight heightWalk)
        else (l.pprev walk).bind fun p => ancestorLoop height fuel p (heightWalk - 1)

variable (i : ι)

def getAncestor (height : ℤ) : Option ι :=
  if l.nHeight i < height ∨ height < 0 then none
  else l.ancestorLoop height.toNat (l.nHeight i + 1) i (l.nHeight i)

def getBlockTime : ℤ := (l.nTime i).toNat

def nMedianTimeSpan : ℕ := 11

/-- The times the loop of `GetMedianTimePast` collects, the latest block first. -/
def ancestorTimes : ℕ → Option ι → List ℤ
  | 0, _ => []
  | _ + 1, none => []
  | n + 1, some i => l.getBlockTime i :: ancestorTimes n (l.pprev i)

def getMedianTimePast : ℤ := Median.median 0 (l.ancestorTimes nMedianTimeSpan (some i))

/-- The entry `n` steps back by `pprev`. -/
def back : ℕ → Option ι → Option ι
  | 0, x => x
  | n + 1, x => back n (x.bind l.pprev)

/-- The height of a block whose parent is `x`. -/
def nextHeight : Option ι → ℕ
  | none => 0
  | some i => l.nHeight i + 1

@[simp] theorem back_zero (x : Option ι) : l.back 0 x = x := rfl

@[simp] theorem back_succ_some (n : ℕ) (i : ι) : l.back (n + 1) (some i) = l.back n (l.pprev i) :=
  rfl

@[simp] theorem nextHeight_none : l.nextHeight none = 0 := rfl

@[simp] theorem nextHeight_some : l.nextHeight (some i) = l.nHeight i + 1 := rfl

variable (m n : ℕ) (x : Option ι)

theorem back_add : l.back (m + n) x = l.back n (l.back m x) := by
  induction m generalizing x with
  | zero => rw [zero_add, back_zero]
  | succ m ih => rw [succ_add, back, ih, back]

@[simp] theorem back_none (n : ℕ) : l.back n none = none := by
  induction n with
  | zero => rfl
  | succ n ih => exact ih

theorem ancestorTimes_take : (l.ancestorTimes (n + m) x).take n = l.ancestorTimes n x := by
  induction n generalizing x with
  | zero => simp [ancestorTimes]
  | succ n ih =>
    cases x with
    | none => simp [ancestorTimes, succ_add]
    | some i => rw [succ_add, ancestorTimes, take_succ_cons, ih, ancestorTimes]

theorem ancestorTimes_add :
    l.ancestorTimes (m + n) x = l.ancestorTimes m x ++ l.ancestorTimes n (l.back m x) := by
  induction m generalizing x with
  | zero => rw [zero_add, back_zero, ancestorTimes, nil_append]
  | succ m ih =>
    cases x with
    | none => cases n <;> simp [ancestorTimes]
    | some i => rw [succ_add, ancestorTimes, ih, ancestorTimes, back_succ_some, cons_append]

theorem ancestorTimes_length_le (n : ℕ) (x : Option ι) : (l.ancestorTimes n x).length ≤ n := by
  induction n generalizing x with
  | zero => simp [ancestorTimes]
  | succ n ih =>
    cases x with
    | none => simp [ancestorTimes]
    | some i =>
      exact succ_le_succ (ih _)

end Links

theorem invertLowestOne_le (n : ℕ) : invertLowestOne n ≤ n - 1 := and_le_right

/-- The skip list only leads down. -/
theorem getSkipHeight_lt {height : ℕ} (h : 0 < height) : getSkipHeight height < height := by
  have h1 := invertLowestOne_le height
  have h2 := invertLowestOne_le (height - 1)
  have h3 := invertLowestOne_le (invertLowestOne (height - 1))
  unfold getSkipHeight
  split
  · exact h
  · split <;> omega

/-- **The tree of entries**: each is one above its parent, and `pskip` is what `BuildSkip` set it
to. -/
structure BlockTree (ι : Type) extends Links ι where
  height_genesis : ∀ i, pprev i = none → nHeight i = 0
  height_child : ∀ i p, pprev i = some p → nHeight i = nHeight p + 1
  skip_genesis : ∀ i, pprev i = none → pskip i = none
  skip_child : ∀ i p, pprev i = some p → pskip i = toLinks.getAncestor p (getSkipHeight (nHeight i))

namespace BlockTree

open Links

variable {ι : Type} (t : BlockTree ι)

theorem nextHeight_bind_pprev (x : Option ι) :
    t.nextHeight (x.bind t.pprev) = t.nextHeight x - 1 := by
  cases x with
  | none => rfl
  | some i =>
    cases hp : t.pprev i with
    | none => simp [hp, t.height_genesis i hp]
    | some p => simp [hp, t.height_child i p hp]

theorem nextHeight_back (n : ℕ) (x : Option ι) :
    t.nextHeight (t.back n x) = t.nextHeight x - n := by
  induction n generalizing x with
  | zero => rfl
  | succ n ih => rw [Links.back, ih, nextHeight_bind_pprev, Nat.sub_sub, Nat.add_comm]

theorem eq_none_of_nextHeight_eq_zero {x : Option ι} (h : t.nextHeight x = 0) : x = none := by
  cases x with
  | none => rfl
  | some i => simp at h

theorem exists_back {n : ℕ} {x : Option ι} (h : n < t.nextHeight x) :
    ∃ i, t.back n x = some i ∧ t.nHeight i + 1 = t.nextHeight x - n := by
  have hheight := t.nextHeight_back n x
  cases hb : t.back n x with
  | none =>
    rw [hb, nextHeight_none] at hheight
    omega
  | some i => exact ⟨i, rfl, by rw [hb] at hheight; exact hheight⟩

/-! ## The skip list -/

/-- The loop arrives where `pprev` leads, by induction on the height: both ways from `pskip` are
walks from lower entries. -/
theorem ancestorLoop_eq_back {height fuel : ℕ} {i : ι} (hle : height ≤ t.nHeight i)
    (hfuel : t.nHeight i - height < fuel) :
    t.ancestorLoop height fuel i (t.nHeight i) = t.back (t.nHeight i - height) (some i) := by
  induction hn : t.nHeight i using Nat.strong_induction_on generalizing i height fuel with
  | _ n ih =>
  subst hn
  obtain ⟨fuel, rfl⟩ : ∃ k, fuel = k + 1 := ⟨fuel - 1, by omega⟩
  rw [Links.ancestorLoop]
  rcases hle.eq_or_lt with heq | hlt
  · rw [if_pos heq.ge, heq, Nat.sub_self, back_zero]
  rw [if_neg (by omega)]
  cases hp : t.pprev i with
  | none => exact absurd (t.height_genesis i hp) (by omega)
  | some p => ?_
  have hheight := t.height_child i p hp
  -- the way by the parent
  have hprev : t.ancestorLoop height fuel p (t.nHeight i - 1) =
      t.back (t.nHeight i - height) (some i) := by
    rw [show t.nHeight i - 1 = t.nHeight p by omega,
      show t.nHeight i - height = t.nHeight p - height + 1 by omega, back_succ_some, hp]
    exact ih _ (by omega) (by omega) (by omega) rfl
  have hskipLt : getSkipHeight (t.nHeight i) < t.nHeight i := getSkipHeight_lt (by omega)
  -- where `BuildSkip` pointed the entry to
  have hskip : t.pskip i = t.back (t.nHeight i - getSkipHeight (t.nHeight i)) (some i) := by
    rw [t.skip_child i p hp, Links.getAncestor, if_neg (by omega),
      show t.nHeight i - getSkipHeight (t.nHeight i) =
        t.nHeight p - getSkipHeight (t.nHeight i) + 1 by omega, back_succ_some, hp]
    exact ih _ (by omega) (by omega) (by omega) rfl
  cases hs : t.pskip i with
  | none => simpa using hprev
  | some skip =>
    dsimp only
    split_ifs with hfollow
    · rw [hs] at hskip
      have hsheight : t.nHeight skip = getSkipHeight (t.nHeight i) := by
        have := t.nextHeight_back (t.nHeight i - getSkipHeight (t.nHeight i)) (some i)
        rw [← hskip, nextHeight_some, nextHeight_some] at this
        omega
      have hreach : height ≤ getSkipHeight (t.nHeight i) := by rcases hfollow with h | h <;> omega
      rw [← hsheight, ih _ (by omega) (by omega) (by omega) rfl, hskip, ← Links.back_add]
      congr 1
      omega
    · simpa using hprev

/-- **`GetAncestor` is exact.** -/
theorem getAncestor_eq_back {i : ι} {height : ℕ} (h : height ≤ t.nHeight i) :
    t.getAncestor i height = t.back (t.nHeight i - height) (some i) := by
  rw [Links.getAncestor, if_neg (by omega)]
  exact t.ancestorLoop_eq_back h (by omega)

/-- `GetAncestor` at a height some blocks below, as its callers write it. -/
theorem getAncestor_sub (i : ι) (n : ℕ) :
    t.getAncestor i (t.nHeight i - n) = t.back n (some i) := by
  by_cases hn : n ≤ t.nHeight i
  · rw [show (t.nHeight i : ℤ) - n = (t.nHeight i - n : ℕ) by omega,
      t.getAncestor_eq_back (by omega), show t.nHeight i - (t.nHeight i - n) = n by omega]
  · rw [Links.getAncestor, if_pos (by omega)]
    refine (t.eq_none_of_nextHeight_eq_zero ?_).symm
    rw [t.nextHeight_back, nextHeight_some]
    omega

/-! ## Median time past -/

/-- The rule of `ContextualCheckBlockHeader` on the time of a header. -/
def TimesAboveMedian : Prop :=
  ∀ i p, t.pprev i = some p → t.getMedianTimePast p < t.getBlockTime i

/-- The rule, for the blocks above height `k`. -/
def AboveMedianFrom (k : ℕ) : Prop :=
  ∀ i p, t.pprev i = some p → k ≤ t.nHeight p → t.getMedianTimePast p < t.getBlockTime i

variable {t}

theorem TimesAboveMedian.aboveMedianFrom (h : t.TimesAboveMedian) (k : ℕ) :
    t.AboveMedianFrom k := fun i p hp _ => h i p hp

namespace AboveMedianFrom

variable {k : ℕ} {i a p : ι}

section

variable (h : t.AboveMedianFrom k)
include h

/-- **Median time past does not decrease** from a parent to its child. -/
theorem le_of_pprev (hp : t.pprev i = some p) (hk : k ≤ t.nHeight p) :
    t.getMedianTimePast p ≤ t.getMedianTimePast i := by
  have hwindow : t.ancestorTimes nMedianTimeSpan (some i) =
      t.getBlockTime i :: (t.ancestorTimes nMedianTimeSpan (some p)).take 10 := by
    have := t.ancestorTimes_take 1 10 (some p)
    rw [show nMedianTimeSpan = 10 + 1 from rfl, this, Links.ancestorTimes, hp]
  unfold Links.getMedianTimePast
  rw [hwindow]
  refine Median.median_le_median_cons_take ?_ (t.ancestorTimes_length_le _ _) (h i p hp hk)
  exact cons_ne_nil _ _

/-- **Above `a`** there are no lower medians, and the times are above the one of `a`. -/
theorem of_back {n : ℕ} (ha : t.back n (some i) = some a) (hk : k ≤ t.nHeight a) :
    t.getMedianTimePast a ≤ t.getMedianTimePast i ∧ (t.ancestorTimes n (some i)).length = n ∧
      ∀ time ∈ t.ancestorTimes n (some i), t.getMedianTimePast a < time := by
  induction n generalizing i with
  | zero =>
    obtain rfl := Option.some.inj ha
    exact ⟨le_rfl, rfl, fun time htime => nomatch htime⟩
  | succ n ih =>
    rw [back_succ_some] at ha
    cases hp : t.pprev i with
    | none =>
      rw [hp, back_none] at ha
      cases ha
    | some p =>
      rw [hp] at ha
      obtain ⟨hle, hlen, htimes⟩ := ih ha
      have hheight := t.nextHeight_back n (some p)
      rw [ha, nextHeight_some, nextHeight_some] at hheight
      have hkp : k ≤ t.nHeight p := by omega
      rw [Links.ancestorTimes, hp, length_cons, hlen]
      exact ⟨hle.trans (h.le_of_pprev hp hkp), rfl,
        forall_mem_cons.2 ⟨hle.trans_lt (h i p hp hkp), htimes⟩⟩

/-- **Over six blocks it increases**: with six times above the old median, and no more
than five others in the window, the middle one is above it. -/
theorem lt_of_six (ha : t.back 6 (some i) = some a)
    (hk : k ≤ t.nHeight a) : t.getMedianTimePast a + 1 ≤ t.getMedianTimePast i := by
  obtain ⟨-, hlen, htimes⟩ := h.of_back ha hk
  have hwindow : t.ancestorTimes nMedianTimeSpan (some i) =
      t.ancestorTimes 6 (some i) ++ t.ancestorTimes 5 (some a) := by
    rw [show nMedianTimeSpan = 6 + 5 from rfl, t.ancestorTimes_add, ha]
  have hrest := t.ancestorTimes_length_le 5 (some a)
  have hcount : (t.ancestorTimes 6 (some i)).countP (· < t.getMedianTimePast a + 1) = 0 := by
    refine countP_eq_zero.2 fun time htime => ?_
    have := htimes time htime
    simp only [decide_eq_true_eq]
    omega
  have hbelow := countP_le_length (p := (· < t.getMedianTimePast a + 1))
    (l := t.ancestorTimes 5 (some a))
  have hmedian := Median.le_median_iff (d := 0) (m := t.getMedianTimePast a + 1)
    (l := t.ancestorTimes nMedianTimeSpan (some i)) (cons_ne_nil _ _)
  rw [hwindow, countP_append, length_append, ← hwindow] at hmedian
  exact hmedian.2 (by omega)

/-- So `n` blocks take a sixth of a second each, or more. -/
theorem add_div_le {n : ℕ} (ha : t.back n (some i) = some a)
    (hk : k ≤ t.nHeight a) : t.getMedianTimePast a + (n / 6 : ℕ) ≤ t.getMedianTimePast i := by
  induction n using Nat.strong_induction_on generalizing i with
  | _ n ih =>
  rcases lt_or_ge n 6 with hn | hn
  · have := (h.of_back ha hk).1
    omega
  · -- the first six blocks, and then the others
    have hadd := t.back_add 6 (n - 6) (some i)
    rw [show 6 + (n - 6) = n by omega, ha] at hadd
    cases hb : t.back 6 (some i) with
    | none =>
      rw [hb, back_none] at hadd
      cases hadd
    | some b =>
      rw [hb] at hadd
      have hheight := t.nextHeight_back (n - 6) (some b)
      rw [← hadd, nextHeight_some, nextHeight_some] at hheight
      have hbelow := ih (n - 6) (by omega) hadd.symm
      have hsix := h.lt_of_six hb (by omega)
      omega

end

end AboveMedianFrom

/-- **Median time past grows**: from a parent to its child it never decreases, and over six blocks
it increases. -/
theorem medianTimePast_grows (t : BlockTree ι) (h : t.TimesAboveMedian) :
    (∀ i p, t.pprev i = some p → t.getMedianTimePast p ≤ t.getMedianTimePast i) ∧
    ∀ i a, t.back 6 (some i) = some a → t.getMedianTimePast a + 1 ≤ t.getMedianTimePast i :=
  ⟨fun _ _ hp => (h.aboveMedianFrom 0).le_of_pprev hp (zero_le _),
    fun _ _ ha => (h.aboveMedianFrom 0).lt_of_six ha (zero_le _)⟩

end BlockTree

/-- Seven blocks, one second after the other. -/
def sevenBlocks : BlockTree (Fin 7) where
  pprev i := if i = 0 then none else some (i - 1)
  pskip i := if i = 0 then none else some (Fin.ofNat 7 (getSkipHeight i))
  nHeight i := i
  nTime i := UInt32.ofNat i
  height_genesis := by decide
  height_child := by decide
  skip_genesis := by decide
  skip_child := by decide

/-- Over six of them the median time past increases. -/
theorem sevenBlocks_grow :
    sevenBlocks.getMedianTimePast 0 + 1 ≤ sevenBlocks.getMedianTimePast 6 := by
  refine (BlockTree.medianTimePast_grows sevenBlocks ?_).2 6 0 rfl
  unfold BlockTree.TimesAboveMedian
  decide

end Quarlcoin
