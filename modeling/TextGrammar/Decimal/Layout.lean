import TextGrammar.Decimal.Shortest

/-!
# The text of a number

A numeral is written positionally, with a point between its digits where one is needed, or with its
first digit before the point and the power of ten behind an `e`.  A layout says which, and whether a
whole number gets an added `.0`.
-/

namespace TextGrammar

/-- The choices left open in writing a numeral. -/
structure Layout where
  /-- Whether `.0` is added to whole numbers written positionally. -/
  marksWhole : Bool
  /-- Whether a number whose first digit counts this power of ten is written positionally. -/
  positional : Int → Bool

namespace Layout

/-- Never a power of ten, and whole numbers as such. -/
def plain : Layout :=
  ⟨false, fun _ => true⟩

/-- Whole numbers get `.0`, and a power of ten is written from 10^16 on and below 10^(-4). -/
def descriptive : Layout :=
  ⟨true, fun leading => -4 ≤ leading && leading < 16⟩

end Layout

namespace Decimal

/-- The digits of a numeral with the point at its place, and zeros where digits are missing. -/
def positional (layout : Layout) (digits : List Char) (exponent : Int) : List Char :=
  let whole := digits.length + exponent
  if 0 ≤ exponent then
    digits ++ List.replicate exponent.toNat '0' ++ (if layout.marksWhole then ['.', '0'] else [])
  else if whole ≤ 0 then
    '0' :: '.' :: (List.replicate (-whole).toNat '0' ++ digits)
  else
    digits.take whole.toNat ++ '.' :: digits.drop whole.toNat

/-- The digits of a numeral with the point behind the first, and the power of ten. -/
def scientific (digits : List Char) (exponent : Int) : List Char :=
  let power := (toString (digits.length + exponent - 1)).toList
  match digits with
  | [] => []
  | [first] => first :: 'e' :: power
  | first :: rest => first :: '.' :: (rest ++ 'e' :: power)

/-- The text of a numeral. -/
def chars (layout : Layout) (numeral : Decimal) : List Char :=
  let digits := Nat.toDigits 10 numeral.coefficient
  let unsigned :=
    if layout.positional (digits.length + numeral.exponent - 1) then
      positional layout digits numeral.exponent
    else
      scientific digits numeral.exponent
  if numeral.negative then '-' :: unsigned else unsigned

end Decimal

namespace Binary64

/-- The text of a number: its shortest numeral, or a word for what has none. -/
def chars (layout : Layout) : Binary64 → List Char
  | .finite negative rank => Decimal.chars layout { Decimal.shortest rank with negative }
  | .infinity negative => if negative then ['-', 'i', 'n', 'f'] else ['i', 'n', 'f']
  | .nan => ['N', 'a', 'N']

end Binary64

end TextGrammar
