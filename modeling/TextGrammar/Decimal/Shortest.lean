import TextGrammar.Decimal.Basic

/-!
# The shortest numeral of a double

Of the numerals that read back to a double the shortest has the fewest digits, and of those it is
the one nearest to the double; half way between two it is the greater.

On the grid of multiples of a power of ten only the two neighbours of the double need to be looked
at.  The grids are tried from coarse to fine, so the first hit has the fewest digits.  Whether a
numeral reads back is decided by reading it, so what is found reads back by construction.
-/

namespace TextGrammar

namespace Decimal

/-- How many digits stand before the point of a positive number: the least exponent whose power of
ten is greater than the number. -/
def wholeDigits (number : Rat) : Int :=
  let estimate : Int :=
    ((Nat.toDigits 10 number.num.toNat).length : Int) - (Nat.toDigits 10 number.den).length
  if (10 : Rat) ^ estimate ≤ number then estimate + 1 else estimate

/-- The multiples of 10^`exponent` on either side of a number, the nearer one first, and half way
the greater one first. -/
def neighbours (number : Rat) (exponent : Int) : List Decimal :=
  let scaled := number * 10 ^ (-exponent)
  let floor := scaled.floor
  let below := ⟨false, floor.toNat, exponent⟩
  let above := ⟨false, floor.toNat + 1, exponent⟩
  if scaled - floor < 1 / 2 then [below, above] else [above, below]

/-- Every digit of the double of rank `rank`, which is a finite decimal fraction as a fraction with
a power of two below is. -/
def expansion (rank : Nat) : Decimal :=
  let significand := Binary64.significand rank
  match Binary64.binaryExponent rank with
  | .ofNat exponent => ⟨false, significand * Nat.pow 2 exponent, 0⟩
  | .negSucc exponent => ⟨false, significand * Nat.pow 5 (exponent + 1), .negSucc exponent⟩

/-- Whether a numeral reads back to the double of rank `rank`. -/
def readsBack (rank : Fin Binary64.rankCount) (numeral : Decimal) : Bool :=
  numeral.toBinary64 == .finite false rank

/-- The shortest numeral that reads back to the double of rank `rank`.  Seventeen digits always
suffice. -/
def shortest (rank : Fin Binary64.rankCount) : Decimal :=
  if rank.val = 0 then ⟨false, 0, 0⟩
  else
    let number := Binary64.magnitude rank
    let whole := wholeDigits number
    ((List.range 18).findSome? fun (digits : Nat) =>
      (neighbours number (whole - digits)).find? (readsBack rank)).getD (expansion rank)

end Decimal

end TextGrammar
