import TextGrammar.Binary64.Rounding

/-!
# Decimal numerals

A decimal numeral is a sign, a natural number and a power of ten.  `Decimal.ofList?` reads numerals
of the form

    -? digit+ (. digit+)? ((e|E) (+|-)? digit+)?

and nothing else, and `Decimal.toBinary64` is the double nearest to what a numeral denotes.
-/

namespace TextGrammar

/-- The number `coefficient * 10 ^ exponent`, or its negative. -/
structure Decimal where
  negative : Bool
  coefficient : Nat
  exponent : Int
  deriving DecidableEq

namespace Decimal

/-- The absolute value of a numeral. -/
def magnitude (numeral : Decimal) : Rat :=
  numeral.coefficient * 10 ^ numeral.exponent

/-- The double nearest to a numeral.

Numerals whose size is plain from the exponent alone are answered without computing the power of
ten.  Beyond 10^400 lies infinity.  A coefficient below 2^(b + 1) times 10^e is below 2^(b + 1 + 3e)
for negative e, and what is below 2^(-1100) rounds to zero. -/
def toBinary64 (numeral : Decimal) : Binary64 :=
  if numeral.coefficient = 0 then .zero numeral.negative
  else if 400 < numeral.exponent then .infinity numeral.negative
  else if numeral.coefficient.log2 + 3 * numeral.exponent < -1100 then .zero numeral.negative
  else .nearest numeral.negative numeral.magnitude

/-! ## Reading numerals -/

/-- The digits at the start of a text, of which there has to be one, and what follows them. -/
def digitRun? (text : List Char) : Option (List Char × List Char) :=
  match text.span Char.isDigit with
  | ([], _) => none
  | (digits, rest) => some (digits, rest)

/-- The digits behind a point, none if no point comes first. -/
def fraction? : List Char → Option (List Char × List Char)
  | '.' :: rest => digitRun? rest
  | text => some ([], text)

/-- The sign at the start of a text, which stands for `negative` when it is a minus. -/
def sign : List Char → Bool × List Char
  | '-' :: rest => (true, rest)
  | text => (false, text)

/-- The signed power of ten that makes up the rest of a numeral, behind its mark. -/
def exponent? (text : List Char) : Option Int := do
  let (negative, unsigned) := match text with
    | '+' :: rest => (false, rest)
    | text => sign text
  let (digits, rest) ← digitRun? unsigned
  let size : Int := Nat.ofDigitChars 10 digits 0
  if rest = [] then some (if negative then -size else size) else none

/-- The power of ten that makes up the rest of a numeral, zero if nothing is left. -/
def scale? : List Char → Option Int
  | [] => some 0
  | 'e' :: rest => exponent? rest
  | 'E' :: rest => exponent? rest
  | _ => none

/-- The numeral that a text spells. -/
def ofList? (text : List Char) : Option Decimal := do
  let (negative, unsigned) := sign text
  let (whole, rest) ← digitRun? unsigned
  let (fraction, rest) ← fraction? rest
  let scale ← scale? rest
  some ⟨negative, Nat.ofDigitChars 10 (whole ++ fraction) 0, scale - fraction.length⟩

end Decimal

end TextGrammar
