import TextGrammar.Decimal.Basic
import TextGrammar.Proofs.Binary64.Nearest

/-!
# The double of a numeral

A numeral with a very great or a very small power of ten is converted without computing the power.
These answers are related here to the nearest double of the number that the numeral denotes, so that
a conversion is a rounding whatever the numeral.
-/

namespace TextGrammar.Decimal

open TextGrammar.Binary64

theorem magnitude_nonneg (numeral : Decimal) : 0 ≤ numeral.magnitude := by
  unfold magnitude
  positivity

/-! ## Answers from the exponent alone -/

/-- Beyond 10^400 lies infinity. -/
theorem nearest_of_exponent_great {numeral : Decimal} (filled : numeral.coefficient ≠ 0)
    (great : 400 < numeral.exponent) (negative : Bool) :
    nearest negative numeral.magnitude = .infinity negative := by
  have least : (1 : Rat) ≤ numeral.coefficient :=
    Nat.one_le_cast.mpr (Nat.one_le_iff_ne_zero.mpr filled)
  rw [nearest_eq_infinity_iff numeral.magnitude_nonneg]
  calc (2 : Rat) ^ 1024 - 2 ^ 970
      ≤ 2 ^ 1024 := sub_le_self _ (by positivity)
    _ ≤ 2 ^ (3 * 400) := pow_le_pow_right₀ one_le_two (by decide)
    _ = 8 ^ 400 := by
        rw [pow_mul]
        norm_num
    _ ≤ 10 ^ 400 := by
        gcongr
        norm_num
    _ ≤ 10 ^ numeral.exponent := by
        rw [← zpow_natCast]
        exact zpow_le_zpow_right₀ (by norm_num) great.le
    _ ≤ numeral.magnitude := le_mul_of_one_le_left (by positivity) least

/-- A numeral that is a decimal fraction is bounded by a power of two, since each factor ten in the
denominator is worth more than three binary digits. -/
theorem magnitude_lt {numeral : Decimal} (filled : numeral.coefficient ≠ 0)
    (scaled : numeral.exponent ≤ 0) :
    numeral.magnitude < 2 ^ (numeral.coefficient.log2 + 1 + 3 * numeral.exponent) := by
  obtain ⟨places, exponentEq⟩ := Int.exists_eq_neg_ofNat scaled
  have tenth : (10 : Rat) ^ numeral.exponent ≤ 2 ^ (3 * numeral.exponent) := by
    rw [zpow_mul, exponentEq, zpow_neg, zpow_neg, zpow_natCast, zpow_natCast]
    gcongr
    norm_num
  rw [zpow_add₀ two_ne_zero]
  exact mul_lt_mul (natCast_log2_bounds filled).2 tenth (by positivity) (by positivity)

/-- A numeral whose bound is below 2^(-1100) lies in the range of zero. -/
theorem nearest_of_exponent_small {numeral : Decimal} (filled : numeral.coefficient ≠ 0)
    (small : numeral.coefficient.log2 + 3 * numeral.exponent < -1100) (negative : Bool) :
    nearest negative numeral.magnitude = .zero negative := by
  rw [nearest_eq_zero_iff numeral.magnitude_nonneg]
  exact (magnitude_lt filled (by omega)).le.trans (zpow_le_zpow_right₀ one_le_two (by omega))

/-! ## Conversion is rounding -/

/-- A numeral is converted to the double nearest to the number it denotes. -/
theorem toBinary64_eq_nearest (numeral : Decimal) :
    numeral.toBinary64 = nearest numeral.negative numeral.magnitude := by
  unfold toBinary64
  split
  · next none => simp [magnitude, none, nearest, nearestRank, zero, rankCount, binade]
  · next filled =>
      split
      · next great => exact (nearest_of_exponent_great filled great _).symm
      · split
        · next small => exact (nearest_of_exponent_small filled small _).symm
        · rfl

/-- The finite double of a numeral has its sign and is the nearest to what it denotes. -/
theorem toBinary64_eq_finite_iff {numeral : Decimal} {negative : Bool} {rank : Fin rankCount} :
    numeral.toBinary64 = .finite negative rank ↔
      numeral.negative = negative ∧ IsNearest numeral.magnitude rank := by
  rw [toBinary64_eq_nearest, nearest_eq_finite_iff numeral.magnitude_nonneg]

/-- A numeral has a finite double unless it reaches half a unit above the greatest one. -/
theorem isFinite_toBinary64 (numeral : Decimal) :
    numeral.toBinary64.isFinite = true ↔ numeral.magnitude < 2 ^ 1024 - 2 ^ 970 := by
  rw [toBinary64_eq_nearest, isFinite_nearest numeral.magnitude_nonneg]

end TextGrammar.Decimal
