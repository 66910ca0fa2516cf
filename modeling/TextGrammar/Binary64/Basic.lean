/-!
# Double-precision numbers

The nonnegative finite doubles form an increasing list, and a double is held as its place in that
list together with a sign.  The place of a double, its *rank*, reads off the exponent and the
significand: 2^52 consecutive ranks share one exponent.  Numbers that are not numbers are not told
apart.

Two equalities matter and are kept apart.  `=` is equality of representation, so that zero and
negative zero differ.  `numericEq` is equality of numbers as the standard for floating-point
arithmetic has it: the two zeros are equal, and what is not a number equals nothing, itself
included.
-/

namespace TextGrammar

namespace Binary64

/-- How many consecutive ranks share one exponent, 2^52. -/
def binade : Nat := 0x10000000000000

/-- How many nonnegative finite doubles there are. -/
def rankCount : Nat := 2047 * binade

end Binary64

/-- A double-precision number. -/
inductive Binary64 where
  | finite (negative : Bool) (rank : Fin Binary64.rankCount)
  | infinity (negative : Bool)
  | nan
  deriving DecidableEq

namespace Binary64

/-- Zero with the given sign. -/
def zero (negative : Bool) : Binary64 :=
  .finite negative ⟨0, by decide⟩

instance : Inhabited Binary64 := ⟨zero false⟩

/-- Whether the number is neither infinite nor missing. -/
def isFinite : Binary64 → Bool
  | .finite _ _ => true
  | .infinity _ => false
  | .nan => false

/-- Equality of numbers: zeros are equal whatever their sign, and `nan` equals nothing. -/
def numericEq : Binary64 → Binary64 → Bool
  | .finite leftNegative leftRank, .finite rightNegative rightRank =>
      leftRank == rightRank && (leftNegative == rightNegative || leftRank.val == 0)
  | .infinity leftNegative, .infinity rightNegative => leftNegative == rightNegative
  | _, _ => false

/-! ## Ranks -/

/-- The integer significand of the double of rank `rank`.  From rank 2^52 on it has 53 binary
digits. -/
def significand (rank : Nat) : Nat :=
  if rank < binade then rank else binade + rank % binade

/-- The power of two that the significand of the double of rank `rank` counts. -/
def binaryExponent (rank : Nat) : Int :=
  (rank / binade - 1 : Nat) - 1074

/-- The absolute value of the double of rank `rank`. -/
def magnitude (rank : Nat) : Rat :=
  significand rank * 2 ^ binaryExponent rank

/-! ## Bit patterns -/

/-- What the sign bit counts, 2^63. -/
def signBit : Nat := 0x8000000000000000

/-- The 64 bits of a double: sign, then rank, with the ranks past the last finite one for infinity
and `nan`. -/
def toBits : Binary64 → UInt64
  | .finite negative rank => .ofNat (negative.toNat * signBit + rank)
  | .infinity negative => .ofNat (negative.toNat * signBit + rankCount)
  | .nan => .ofNat (rankCount + binade / 2)

/-- The double with the given 64 bits. -/
def ofBits (bits : UInt64) : Binary64 :=
  let negative := decide (signBit ≤ bits.toNat)
  let unsigned := bits.toNat % signBit
  if isRank : unsigned < rankCount then .finite negative ⟨unsigned, isRank⟩
  else if unsigned = rankCount then .infinity negative
  else .nan

/-- Every double is found again from its bits. -/
theorem ofBits_toBits (number : Binary64) : ofBits number.toBits = number := by
  cases number with
  | finite negative rank =>
      have fits : (rank : Nat) < signBit := Nat.lt_trans rank.isLt (by decide)
      have word : negative.toNat * signBit + (rank : Nat) < 2 ^ 64 := by
        have := negative.toNat_le
        simp only [signBit] at fits ⊢
        omega
      have sign : decide (signBit ≤ negative.toNat * signBit + (rank : Nat)) = negative := by
        cases negative
        · simpa using fits
        · simp
      have unsigned : (negative.toNat * signBit + (rank : Nat)) % signBit = rank := by
        rw [Nat.mul_add_mod_self_right, Nat.mod_eq_of_lt fits]
      have value : (UInt64.ofNat (negative.toNat * signBit + rank)).toNat =
          negative.toNat * signBit + rank := by
        rw [UInt64.toNat_ofNat']
        exact Nat.mod_eq_of_lt word
      unfold toBits ofBits
      simp only []
      rw [value]
      simp only [sign, unsigned, dif_pos rank.isLt]
  | infinity negative => cases negative <;> rfl
  | nan => rfl

end Binary64

end TextGrammar
