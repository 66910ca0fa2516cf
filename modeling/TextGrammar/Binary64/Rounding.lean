import TextGrammar.Binary64.Basic

/-!
# Rounding to the nearest double

A nonnegative rational number is rounded to the double nearest to it, and half way between two
doubles to the one whose significand is even.  Everything is computed exactly.  Numbers from half a
unit above the largest finite double on round to infinity.
-/

namespace TextGrammar

namespace Binary64

/-- The integer nearest to `number`, and half way the even one. -/
def roundHalfEven (number : Rat) : Nat :=
  let floor := number.floor
  let fraction := number - floor
  if fraction < 1 / 2 ∨ (fraction = 1 / 2 ∧ floor % 2 = 0) then floor.toNat else (floor + 1).toNat

/-- The exponent of the greatest power of two that is at most `number`, for positive numbers. -/
def floorLog2 (number : Rat) : Int :=
  let estimate : Int := (number.num.toNat.log2 : Int) - number.den.log2
  if (2 : Rat) ^ estimate ≤ number then estimate else estimate - 1

/-- The rank nearest to a nonnegative number.  A significand that rounds up to the next power of two
carries into the exponent by itself, since ranks run on across exponents. -/
def nearestRank (number : Rat) : Nat :=
  if number = 0 then 0
  else
    let exponent := max (-1074) (floorLog2 number - 52)
    (exponent + 1074).toNat * binade + roundHalfEven (number * 2 ^ (-exponent))

/-- The double nearest to a number, given by its sign and its absolute value. -/
def nearest (negative : Bool) (number : Rat) : Binary64 :=
  let rank := nearestRank number
  if isRank : rank < rankCount then .finite negative ⟨rank, isRank⟩ else .infinity negative

end Binary64

end TextGrammar
