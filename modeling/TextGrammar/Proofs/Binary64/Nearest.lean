import Mathlib.Algebra.Order.Field.Power
import Mathlib.Algebra.Order.Field.Rat
import Mathlib.Tactic.Linarith
import TextGrammar.Binary64.Rounding
import TextGrammar.Proofs.Binary64.Scale

/-!
# The nearest double

Rounding finds the binary exponent of a number from the lengths of its numerator and denominator,
and the significand by rounding to an integer.  What it gives is related here to the whole scale of
the doubles: none is nearer to the number, and where another is as near, the significand is even.
Only one double is nearest in this sense, so a double is nearest to itself, and rounding passes a
rank where the number passes the middle between that rank and the next.
-/

namespace TextGrammar.Binary64

/-! ## The binary exponent of a number -/

/-- A positive natural number lies between two powers of two that follow each other. -/
theorem natCast_log2_bounds {number : Nat} (positive : number ≠ 0) :
    (2 : Rat) ^ (number.log2 : Int) ≤ number ∧ (number : Rat) < 2 ^ ((number.log2 : Int) + 1) := by
  have least : 2 ^ number.log2 ≤ number := Nat.log2_self_le positive
  have less : number < 2 ^ (number.log2 + 1) := Nat.lt_log2_self
  constructor
  · rw [zpow_natCast]
    exact_mod_cast least
  · rw [← Nat.cast_succ, zpow_natCast]
    exact_mod_cast less

/-- A quotient lies between the powers of two that the bounds of its two parts give. -/
theorem quotient_bounds {numerator denominator : Rat} {above below : Int}
    (positive : 0 < denominator)
    (numeratorBounds : (2 : Rat) ^ above ≤ numerator ∧ numerator < 2 ^ (above + 1))
    (denominatorBounds : (2 : Rat) ^ below ≤ denominator ∧ denominator < 2 ^ (below + 1)) :
    (2 : Rat) ^ (above - below - 1) < numerator / denominator ∧
      numerator / denominator < 2 ^ (above - below + 1) := by
  constructor
  · rw [lt_div_iff₀ positive]
    calc (2 : Rat) ^ (above - below - 1) * denominator
        < 2 ^ (above - below - 1) * 2 ^ (below + 1) :=
          mul_lt_mul_of_pos_left denominatorBounds.2 (zpow_pos two_pos _)
      _ = 2 ^ above := by
          rw [← zpow_add₀ two_ne_zero]
          congr 1
          omega
      _ ≤ numerator := numeratorBounds.1
  · rw [div_lt_iff₀ positive]
    calc numerator
        < 2 ^ (above + 1) := numeratorBounds.2
      _ = 2 ^ (above - below + 1) * 2 ^ below := by
          rw [← zpow_add₀ two_ne_zero]
          congr 1
          omega
      _ ≤ 2 ^ (above - below + 1) * denominator :=
          mul_le_mul_of_nonneg_left denominatorBounds.1 (zpow_pos two_pos _).le

/-- The binary exponent of a positive number is between which powers of two it lies. -/
theorem floorLog2_bounds {number : Rat} (positive : 0 < number) :
    (2 : Rat) ^ floorLog2 number ≤ number ∧ number < 2 ^ (floorLog2 number + 1) := by
  have numPositive : number.num.toNat ≠ 0 := by
    have := Rat.num_pos.mpr positive
    omega
  have quotient : (number.num.toNat : Rat) / number.den = number := by
    rw [← Int.cast_natCast, Int.toNat_of_nonneg (Rat.num_pos.mpr positive).le, Rat.num_div_den]
  have bounds := quotient_bounds (Nat.cast_pos.mpr number.den_pos)
    (natCast_log2_bounds numPositive) (natCast_log2_bounds number.den_ne_zero)
  rw [quotient] at bounds
  simp only [floorLog2]
  split
  · next fits => exact ⟨fits, bounds.2⟩
  · next tooGreat =>
      rw [sub_add_cancel]
      exact ⟨bounds.1.le, not_le.mp tooGreat⟩

/-- A number lies among the doubles of one exponent, of which rounding takes one by their common
unit. -/
theorem exists_exponent {number : Rat} (positive : 0 < number) :
    ∃ place : Nat, ∃ scaled, number = scaled * 2 ^ ((place : Int) - 1074) ∧
      nearestRank number = place * binade + roundHalfEven scaled ∧
      0 ≤ scaled ∧ scaled < (2 * binade : Nat) ∧ (place = 0 ∨ (binade : Rat) ≤ scaled) := by
  obtain ⟨least, less⟩ := floorLog2_bounds positive
  generalize exponentEq : max (-1074) (floorLog2 number - 52) = exponent
  have unit : (0 : Rat) < 2 ^ (-exponent) := zpow_pos two_pos _
  have placeEq : ((exponent + 1074).toNat : Int) - 1074 = exponent := by omega
  refine ⟨(exponent + 1074).toNat, number * 2 ^ (-exponent), ?_, ?_, ?_, ?_, ?_⟩
  · rw [placeEq, mul_assoc, ← zpow_add₀ two_ne_zero, neg_add_cancel, zpow_zero, mul_one]
  · simp only [nearestRank, if_neg positive.ne', exponentEq]
  · exact (mul_pos positive unit).le
  · calc number * 2 ^ (-exponent)
        < 2 ^ (floorLog2 number + 1) * 2 ^ (-exponent) := mul_lt_mul_of_pos_right less unit
      _ = 2 ^ (floorLog2 number + 1 - exponent) := by
          rw [← zpow_add₀ two_ne_zero, sub_eq_add_neg]
      _ ≤ 2 ^ (53 : Int) := zpow_le_zpow_right₀ one_le_two (by omega)
      _ = (2 * binade : Nat) := by norm_num [binade]
  · by_cases lowest : (exponent + 1074).toNat = 0
    · exact .inl lowest
    · apply Or.inr
      calc (binade : Rat)
          = 2 ^ (52 : Int) := by norm_num [binade]
        _ = 2 ^ floorLog2 number * 2 ^ (-exponent) := by
            rw [← zpow_add₀ two_ne_zero]
            congr 1
            omega
        _ ≤ number * 2 ^ (-exponent) := mul_le_mul_of_nonneg_right least unit.le

/-! ## Between two neighbours -/

/-- Of two neighbours on a scale, `low` and the next, the nearer one, and of two that are as near
the even one. -/
inductive Nearer (toLow toHigh : Rat) (low : Nat) : Nat → Prop where
  | low (near : toLow < toHigh ∨ (toLow = toHigh ∧ low % 2 = 0)) : Nearer toLow toHigh low low
  | high (near : toHigh < toLow ∨ (toLow = toHigh ∧ low % 2 = 1)) :
      Nearer toLow toHigh low (low + 1)

/-- An exponent comes with an even number of ranks, and its unit does not change what is nearer. -/
theorem Nearer.place {toLow toHigh : Rat} {low choice : Nat}
    (nearer : Nearer toLow toHigh low choice) (place : Nat) {unit : Rat} (positive : 0 < unit) :
    Nearer (toLow * unit) (toHigh * unit) (place * binade + low) (place * binade + choice) := by
  have parity : (place * binade + low) % 2 = low % 2 := by
    unfold binade
    omega
  have same : toLow * unit = toHigh * unit ↔ toLow = toHigh :=
    mul_left_inj' positive.ne'
  cases nearer with
  | low near =>
      apply Nearer.low
      rwa [mul_lt_mul_iff_left₀ positive, same, parity]
  | high near =>
      rw [← add_assoc]
      apply Nearer.high
      rwa [mul_lt_mul_iff_left₀ positive, same, parity]

/-- A number is rounded to the nearer of the two integers around it. -/
theorem roundHalfEven_nearer {number : Rat} (nonneg : 0 ≤ number) :
    ∃ below : Nat, (below : Rat) ≤ number ∧ number < below + 1 ∧
      Nearer (number - below) (below + 1 - number) below (roundHalfEven number) := by
  obtain ⟨below, floorEq⟩ := Int.eq_ofNat_of_zero_le (Rat.le_floor_iff.mpr (by simpa using nonneg))
  have least : (below : Rat) ≤ number := by simpa [floorEq] using Rat.floor_le number
  have less : number < below + 1 := by simpa [floorEq] using Rat.lt_floor_add_one number
  refine ⟨below, least, less, ?_⟩
  simp only [roundHalfEven, floorEq, Int.cast_natCast]
  split
  · next low =>
      apply Nearer.low
      rcases low with less | ⟨half, even⟩
      · exact .inl (by linarith)
      · exact .inr ⟨by linarith, by omega⟩
  · next high =>
      apply Nearer.high
      obtain ⟨great, odd⟩ := not_or.mp high
      rcases lt_or_eq_of_le (not_lt.mp great) with more | half
      · exact .inl (by linarith)
      · have notEven := not_and.mp odd half.symm
        exact .inr ⟨by linarith, by omega⟩

/-- Rounding takes the nearer of the two doubles around a number. -/
theorem nearestRank_nearer {number : Rat} (nonneg : 0 ≤ number) :
    ∃ low, magnitude low ≤ number ∧ number < magnitude (low + 1) ∧
      Nearer (number - magnitude low) (magnitude (low + 1) - number) low (nearestRank number) := by
  rcases eq_or_lt_of_le nonneg with rfl | positive
  · have above : 0 < magnitude 1 := by
      rw [← magnitude_zero]
      exact magnitude_strictMono Nat.zero_lt_one
    have rounded : nearestRank 0 = 0 := by simp [nearestRank]
    refine ⟨0, magnitude_zero.le, above, ?_⟩
    rw [rounded, magnitude_zero, sub_zero, sub_zero]
    exact .low (.inl above)
  · obtain ⟨place, scaled, rfl, rankEq, scaledNonneg, few, first⟩ := exists_exponent positive
    obtain ⟨below, least, less, nearer⟩ := roundHalfEven_nearer scaledNonneg
    have unit : (0 : Rat) < 2 ^ ((place : Int) - 1074) := zpow_pos two_pos _
    have fewBelow : below < 2 * binade := by exact_mod_cast lt_of_le_of_lt least few
    have filled : place = 0 ∨ binade ≤ below := by
      apply first.imp_right
      intro many
      have : (binade : Rat) < (below + 1 : Nat) := by
        push_cast
        exact lt_of_le_of_lt many less
      exact Nat.le_of_lt_succ (by exact_mod_cast this)
    have lowEq := magnitude_place filled fewBelow.le
    have highEq : magnitude (place * binade + below + 1) =
        (below + 1) * 2 ^ ((place : Int) - 1074) := by
      rw [magnitude_succ, binaryExponent_place filled fewBelow, lowEq, add_one_mul]
    refine ⟨place * binade + below, ?_, ?_, ?_⟩
    · rw [lowEq]
      exact mul_le_mul_of_nonneg_right least unit.le
    · rw [highEq]
      exact mul_lt_mul_of_pos_right less unit
    · rw [lowEq, highEq, rankEq, ← sub_mul, ← sub_mul]
      exact nearer.place place unit

/-! ## Nearest among all -/

/-- No double is nearer to a number than the one of rank `rank`, and if another is as near, then
this one has the even significand.  The scale is not cut off at the last finite double. -/
structure IsNearest (number : Rat) (rank : Nat) : Prop where
  closest : ∀ other, |number - magnitude rank| ≤ |number - magnitude other|
  even : ∀ other, other ≠ rank → |number - magnitude other| = |number - magnitude rank| →
    significand rank % 2 = 0

/-- A double is nearest if it lies within some distance, and every other one is farther than it or
not within that distance. -/
theorem isNearest_of_distances {number : Rat} {rank : Nat} (opposite : Rat)
    (far : ∀ other, other ≠ rank → |number - magnitude rank| < |number - magnitude other| ∨
      opposite ≤ |number - magnitude other|)
    (near : |number - magnitude rank| < opposite ∨
      (|number - magnitude rank| = opposite ∧ rank % 2 = 0)) : IsNearest number rank := by
  constructor
  · intro other
    by_cases same : other = rank
    · rw [same]
    · have within : |number - magnitude rank| ≤ opposite := near.elim le_of_lt fun tie => tie.1.le
      exact (far other same).elim le_of_lt within.trans
  · intro other different same
    rcases near with less | ⟨-, even⟩
    · exact absurd same (ne_of_gt ((far other different).elim id less.trans_le))
    · rwa [significand_mod_two]

section

variable {number : Rat} {low : Nat} (least : magnitude low ≤ number)
  (less : number < magnitude (low + 1))
include least less

/-- The doubles around a number are nearer to it than those beyond them. -/
theorem distance_cases (other : Nat) :
    other < low ∧ number - magnitude low < |number - magnitude other| ∨
      other = low ∧ |number - magnitude other| = number - magnitude low ∨
      other = low + 1 ∧ |number - magnitude other| = magnitude (low + 1) - number ∨
      low + 1 < other ∧ magnitude (low + 1) - number < |number - magnitude other| := by
  rcases Nat.lt_trichotomy other low with below | rfl | above
  · have lower := magnitude_strictMono below
    rw [abs_of_nonneg (by linarith)]
    exact .inl ⟨below, by linarith⟩
  · exact .inr (.inl ⟨rfl, abs_of_nonneg (by linarith)⟩)
  · rcases Nat.lt_or_eq_of_le (Nat.succ_le_of_lt above) with beyond | rfl
    · have higher := magnitude_strictMono beyond
      rw [abs_sub_comm, abs_of_nonneg (by linarith)]
      exact .inr (.inr (.inr ⟨beyond, by linarith⟩))
    · rw [abs_sub_comm, abs_of_nonneg (by linarith)]
      exact .inr (.inr (.inl ⟨rfl, rfl⟩))

/-- The nearer of the two doubles around a number is the nearest of all. -/
theorem Nearer.isNearest {rank : Nat}
    (nearer : Nearer (number - magnitude low) (magnitude (low + 1) - number) low rank) :
    IsNearest number rank := by
  have toLow : |number - magnitude low| = number - magnitude low := abs_of_nonneg (by linarith)
  have toHigh : |number - magnitude (low + 1)| = magnitude (low + 1) - number := by
    rw [abs_sub_comm, abs_of_nonneg (by linarith)]
  cases nearer with
  | low near =>
      apply isNearest_of_distances (magnitude (low + 1) - number)
      · intro other different
        rcases distance_cases least less other with ⟨-, far⟩ | ⟨same, -⟩ | ⟨-, far⟩ | ⟨-, far⟩
        · exact .inl (by rwa [toLow])
        · exact absurd same different
        · exact .inr far.ge
        · exact .inr far.le
      · rwa [toLow]
  | high near =>
      apply isNearest_of_distances (number - magnitude low)
      · intro other different
        rcases distance_cases least less other with ⟨-, far⟩ | ⟨-, far⟩ | ⟨same, -⟩ | ⟨-, far⟩
        · exact .inr far.le
        · exact .inr far.ge
        · exact absurd same different
        · exact .inl (by rwa [toHigh])
      · rw [toHigh]
        apply near.imp_right
        rintro ⟨same, odd⟩
        exact ⟨same.symm, by omega⟩

end

/-- Two doubles are not both nearest.  Both would have even significands, and there would be a
double between them. -/
theorem IsNearest.le {number : Rat} {rank other : Nat} (nearest : IsNearest number rank)
    (otherNearest : IsNearest number other) : other ≤ rank := by
  apply le_of_not_gt
  intro less
  have same : |number - magnitude other| = |number - magnitude rank| :=
    le_antisymm (otherNearest.closest rank) (nearest.closest other)
  have even := nearest.even other less.ne' same
  have otherEven := otherNearest.even rank less.ne same.symm
  rw [significand_mod_two] at even otherEven
  have lower := magnitude_strictMono (Nat.lt_succ_self rank)
  have upper : magnitude (rank + 1) < magnitude other := magnitude_strictMono (by omega)
  rcases abs_eq_abs.mp same with equal | middle
  · linarith
  · have closer : |number - magnitude (rank + 1)| < number - magnitude rank :=
      abs_lt.mpr ⟨by linarith, by linarith⟩
    have closest := nearest.closest (rank + 1)
    rw [abs_of_nonneg (a := number - magnitude rank) (by linarith)] at closest
    exact absurd closer (not_lt.mpr closest)

theorem IsNearest.unique {number : Rat} {rank other : Nat} (nearest : IsNearest number rank)
    (otherNearest : IsNearest number other) : rank = other :=
  Nat.le_antisymm (otherNearest.le nearest) (nearest.le otherNearest)

/-! ## What rounding gives -/

/-- Rounding gives the nearest double, the one with the even significand half way. -/
theorem nearestRank_eq_iff {number : Rat} (nonneg : 0 ≤ number) (rank : Nat) :
    nearestRank number = rank ↔ IsNearest number rank := by
  obtain ⟨low, least, less, nearer⟩ := nearestRank_nearer nonneg
  have nearest := nearer.isNearest least less
  constructor
  · rintro rfl
    exact nearest
  · exact nearest.unique

/-- A double is the one nearest to itself. -/
theorem isNearest_magnitude (rank : Nat) : IsNearest (magnitude rank) rank := by
  constructor
  · intro other
    rw [sub_self, abs_zero]
    exact abs_nonneg _
  · intro other different same
    rw [sub_self, abs_zero, abs_eq_zero, sub_eq_zero] at same
    exact absurd (magnitude_strictMono.injective same).symm different

/-- Rounding passes a rank where the number passes the middle between that rank and the next. -/
theorem lt_nearestRank_iff {number : Rat} (nonneg : 0 ≤ number) (rank : Nat) :
    rank < nearestRank number ↔
      magnitude rank + magnitude (rank + 1) < 2 * number ∨
        (magnitude rank + magnitude (rank + 1) = 2 * number ∧ rank % 2 = 1) := by
  obtain ⟨low, least, less, nearer⟩ := nearestRank_nearer nonneg
  generalize nearestRank number = rounded at nearer
  rcases Nat.lt_trichotomy rank low with below | rfl | above
  · have lower := magnitude_strictMono below
    have step := magnitude_strictMono.monotone (Nat.succ_le_of_lt below)
    have passed : low ≤ rounded := by cases nearer <;> omega
    exact iff_of_true (lt_of_lt_of_le below passed) (.inl (by linarith))
  · cases nearer with
    | low near =>
        apply iff_of_false (lt_irrefl _)
        rintro (passed | ⟨same, odd⟩)
        · rcases near with near | ⟨same, -⟩ <;> linarith
        · rcases near with near | ⟨-, even⟩
          · linarith
          · omega
    | high near =>
        apply iff_of_true (Nat.lt_succ_self _)
        rcases near with near | ⟨same, odd⟩
        · exact .inl (by linarith)
        · exact .inr ⟨by linarith, odd⟩
  · have higher := magnitude_strictMono.monotone (Nat.succ_le_of_lt above)
    have step := magnitude_strictMono (Nat.lt_succ_self rank)
    have notPassed : rounded ≤ low + 1 := by cases nearer <;> omega
    apply iff_of_false (by omega)
    rintro (passed | ⟨same, -⟩) <;> linarith

theorem nearest_eq_finite_iff {number : Rat} (nonneg : 0 ≤ number) {negative sign : Bool}
    {rank : Fin rankCount} :
    nearest negative number = .finite sign rank ↔ negative = sign ∧ IsNearest number rank := by
  rw [← nearestRank_eq_iff nonneg]
  simp only [nearest]
  split
  · simp [Fin.ext_iff]
  · next great =>
      have different : nearestRank number ≠ rank := by
        intro same
        exact great (same ▸ rank.isLt)
      simp [different]

theorem nearest_magnitude (negative : Bool) (rank : Fin rankCount) :
    nearest negative (magnitude rank) = .finite negative rank :=
  (nearest_eq_finite_iff (magnitude_nonneg rank)).mpr ⟨rfl, isNearest_magnitude rank⟩

/-- Zero reaches up to half the least positive double. -/
theorem nearest_eq_zero_iff {number : Rat} (nonneg : 0 ≤ number) (negative : Bool) :
    nearest negative number = .zero negative ↔ number ≤ 2 ^ (-1075 : Int) := by
  have first : magnitude 0 + magnitude (0 + 1) = 2 * 2 ^ (-1075 : Int) := by
    rw [magnitude_succ, magnitude_zero, zero_add, zero_add, ← zpow_one_add₀ two_ne_zero]
    rfl
  have least : nearest negative number = .zero negative ↔ ¬0 < nearestRank number := by
    simp only [nearest, zero]
    split
    · simp
    · next great =>
        have : 0 < rankCount := by decide
        simp
        omega
  rw [least, lt_nearestRank_iff nonneg, first]
  simp

/-- Infinity begins half a unit above the greatest finite double. -/
theorem nearest_eq_infinity_iff {number : Rat} (nonneg : 0 ≤ number) (negative : Bool) :
    nearest negative number = .infinity negative ↔ 2 ^ 1024 - 2 ^ 970 ≤ number := by
  have unit : (2 : Rat) ^ 971 = 2 * 2 ^ 970 := pow_succ' 2 970
  have least : (2 : Rat) ^ 1024 = 2 ^ 54 * 2 ^ 970 := by rw [← pow_add]
  have last : magnitude (rankCount - 1) = (2 ^ 53 - 1) * 2 ^ 971 := by
    have place : rankCount - 1 = 2045 * binade + (2 * binade - 1) := by decide
    rw [place, magnitude_place (.inr (by decide)) (by decide)]
    norm_num [binade]
  have after : magnitude (rankCount - 1 + 1) = 2 ^ 1024 := by
    have place : rankCount - 1 + 1 = 2046 * binade + binade := by decide
    have carry : (2 : Rat) ^ 1024 = 2 ^ 52 * 2 ^ 972 := by rw [← pow_add]
    rw [place, magnitude_place (.inr (le_refl _)) (by decide), carry]
    norm_num [binade]
  have odd : (rankCount - 1) % 2 = 1 := by decide
  have infinite : nearest negative number = .infinity negative ↔
      rankCount - 1 < nearestRank number := by
    have : 0 < rankCount := by decide
    simp only [nearest]
    split
    · simp
      omega
    · simp
      omega
  rw [infinite, lt_nearestRank_iff nonneg, last, after, odd, unit, least]
  generalize (2 : Rat) ^ 970 = half
  simp only [and_true, ← le_iff_lt_or_eq]
  constructor <;> intro <;> linarith

theorem isFinite_nearest {number : Rat} (nonneg : 0 ≤ number) (negative : Bool) :
    (nearest negative number).isFinite = true ↔ number < 2 ^ 1024 - 2 ^ 970 := by
  rw [← not_le, ← nearest_eq_infinity_iff nonneg negative]
  simp only [nearest]
  split <;> simp [isFinite]

end TextGrammar.Binary64
