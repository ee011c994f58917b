import Mathlib.Algebra.Order.Field.Rat
import Mathlib.Data.Prod.Lex
import Mathlib.Tactic.FieldSimp
/-!
# Fractions of a fee and a size

`FeeFrac` of `util/feefrac.h`, with the order `ByRatioNegSize`. Fees and sizes are integers
here: the products of the source are taken in 128 bits.
-/

namespace Quarlcoin

structure FeeFrac where
  fee : ℤ
  size : ℤ
  deriving DecidableEq

namespace FeeFrac

def isEmpty (f : FeeFrac) : Bool := f.size = 0

def evaluateFeeUp (f : FeeFrac) (atSize : ℤ) : ℤ :=
  if 0 ≤ f.fee ∧ f.fee < 0x200000000 then
    -- `CeilDiv` of unsigned numbers
    (f.fee * atSize + (f.size - 1)) / f.size
  else
    let quot := (f.fee * atSize).tdiv f.size
    let rem := (f.fee * atSize).tmod f.size
    quot + if 0 < rem then 1 else 0

/-- `ByRatioNegSize`'s `operator<`: by feerate, then the larger size first. -/
def ltByRatioNegSize (a b : FeeFrac) : Bool :=
  if a.fee * b.size = b.fee * a.size then b.size < a.size else a.fee * b.size < b.fee * a.size

end FeeFrac

namespace FeeFrac

variable {a b c : FeeFrac} (f : FeeFrac)

/-- The ratio of the fee to the size. -/
def ratio : ℚ := f.fee / f.size

/-- What `ByRatioNegSize` compares. -/
def ratioNegSize : ℚ ×ₗ ℤ := toLex (f.ratio, -f.size)

variable (ha : 0 < a.size)
include ha

variable (hb : 0 < b.size)
include hb

theorem ratio_lt_iff : a.ratio < b.ratio ↔ a.fee * b.size < b.fee * a.size := by
  have ha' : (0 : ℚ) < a.size := by exact_mod_cast ha
  have hb' : (0 : ℚ) < b.size := by exact_mod_cast hb
  rw [ratio, ratio, div_lt_div_iff₀ ha' hb']
  exact_mod_cast Iff.rfl

theorem ratio_eq_iff : a.ratio = b.ratio ↔ a.fee * b.size = b.fee * a.size := by
  have ha' : (a.size : ℚ) ≠ 0 := by exact_mod_cast ha.ne'
  have hb' : (b.size : ℚ) ≠ 0 := by exact_mod_cast hb.ne'
  rw [ratio, ratio, div_eq_div_iff ha' hb']
  exact_mod_cast Iff.rfl

/-- **`ByRatioNegSize` is a linear order** on fractions of a positive size. -/
theorem ltByRatioNegSize_iff : a.ltByRatioNegSize b = true ↔ a.ratioNegSize < b.ratioNegSize := by
  rw [ratioNegSize, ratioNegSize, Prod.Lex.toLex_lt_toLex, ratio_lt_iff ha hb, ratio_eq_iff ha hb,
    ltByRatioNegSize]
  split
  · next heq =>
    rw [decide_eq_true_eq]
    constructor
    · intro h
      exact .inr ⟨heq, neg_lt_neg h⟩
    · rintro (h | ⟨-, h⟩)
      · exact absurd heq h.ne
      · exact neg_lt_neg_iff.1 h
  · next hne =>
    rw [decide_eq_true_eq]
    exact ⟨.inl, fun h => h.resolve_right fun h => hne h.1⟩

omit hb

theorem ratioNegSize_injective (h : a.ratioNegSize = b.ratioNegSize) : a = b := by
  have hpair := toLex_inj.1 h
  rw [Prod.mk.injEq, neg_inj] at hpair
  obtain ⟨hratio, hsize⟩ := hpair
  have hfee := (ratio_eq_iff ha (hsize ▸ ha)).1 hratio
  cases a
  subst hsize
  rw [mk.injEq]
  exact ⟨Int.eq_of_mul_eq_mul_right ha.ne' hfee, rfl⟩

omit ha

theorem ratio_le_of_ratioNegSize_le (h : a.ratioNegSize ≤ b.ratioNegSize) : a.ratio ≤ b.ratio := by
  rcases Prod.Lex.toLex_le_toLex.1 h with hlt | ⟨heq, -⟩
  · exact hlt.le
  · exact heq.le

end FeeFrac

end Quarlcoin
