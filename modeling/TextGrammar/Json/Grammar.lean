import TextGrammar.Decimal.Basic
import TextGrammar.Json.Escape
import TextGrammar.Json.Options
import TextGrammar.Json.Value
import TextGrammar.Parser.Recursion
import TextGrammar.Parser.Repetition
import TextGrammar.Text.Character

/-!
# The JSON grammar

    element = blank* value blank*
    value   = null | true | false | number | string
            | [ blank* ] | [ element (, element)* ]
            | { blank* } | { member (, member)* }
    member  = blank* string blank* : element
    number  = -? digit+ (. digit+)? ((e|E) (+|-)? digit+)?

Numbers may have leading zeros, and must be finite as doubles.  What a string is depends on the
options.  `value options depth` admits `depth` brackets open at once: each container hands one less
to its parts, and with none left there are no containers.
-/

namespace TextGrammar.Json

open TextGrammar.Parser

/-! ## Blanks and words -/

/-- Any number of blanks. -/
def blanks (options : Options) : Parser (List Char) :=
  many (satisfy options.isBlank)

/-- The value of `parser`, with blanks on both sides passed. -/
def amidBlanks {α : Type} (options : Options) (parser : Parser α) : Parser α :=
  blanks options *> parser <* blanks options

/-- The word that stands for null. -/
def null : Parser Value :=
  (fun _ => .null) <$> literal "null"

/-- The words that stand for truth values. -/
def bool : Parser Value :=
  (fun _ => .bool true) <$> literal "true" <|> (fun _ => .bool false) <$> literal "false"

/-! ## Numbers -/

/-- A run of decimal digits. -/
def digits : Parser (List Char) :=
  many1 (satisfy Char.isDigit)

/-- The text of a number, part by part.  A part that is not complete is left out. -/
def numeral : Parser String :=
  recognize
    (optional (char '-') *> digits
      <* optional (char '.' *> digits)
      <* optional (satisfy (fun mark => mark == 'e' || mark == 'E')
        *> optional (satisfy fun sign => sign == '+' || sign == '-')
        *> digits))

/-- The double nearest to what a numeral denotes, if it is finite. -/
def finiteNumber? (text : String) : Option Binary64 :=
  ((Decimal.ofList? text.toList).map Decimal.toBinary64).filter Binary64.isFinite

/-- A number.  The whole numeral is read before it is converted, and no shorter one is tried when
the number is not finite. -/
def number : Parser Binary64 :=
  numeral.filterMap finiteNumber?

/-! ## Strings -/

/-- A hexadecimal digit, with its value. -/
def hexDigit : Parser Nat :=
  (satisfy fun _ => true).filterMap Text.hexValue?

/-- A code unit: four hexadecimal digits behind a `u`. -/
def codeUnit : Parser Nat :=
  Text.ofHexDigits <$> (char 'u' *> count 4 hexDigit)

/-- A character by its code unit or, behind a high surrogate, by that and a second escape that has
to complete it. -/
def unicodeEscape : Parser Char :=
  codeUnit.andThen fun unit =>
    if Text.isHighSurrogate unit then
      (char '\\' *> codeUnit).filterMap (Text.combine? unit)
    else
      match Text.scalar? unit with
      | some character => pure character
      | none => fail

/-- A character of a string with escapes. -/
def escapedCharacter : Parser Char :=
  satisfy (fun character => character != '"' && character != '\\' && decide (' ' ≤ character))
    <|> char '\\' *> ((satisfy fun _ => true).filterMap shortEscape? <|> unicodeEscape)

/-- A character of a string without escapes. -/
def literalCharacter : Parser Char :=
  satisfy (· != '"')

/-- A character of a string. -/
def stringCharacter : EscapeMode → Parser Char
  | .json => escapedCharacter
  | .literal => literalCharacter

/-- A string, with its escapes resolved. -/
def string (mode : EscapeMode) : Parser String :=
  String.ofList <$> (char '"' *> many (stringCharacter mode) <* char '"')

/-! ## Containers -/

/-- Items with commas between them, or none, amid blanks and inside two brackets. -/
def bracketed {α : Type} (options : Options) (opening closing : Char) (item : Parser α) :
    Parser (List α) :=
  char opening *> blanks options *> (sepBy1 item (char ',') <|> pure []) <* blanks options
    <* char closing

/-- An array of elements. -/
def array (options : Options) (element : Parser Value) : Parser Value :=
  Value.array <$> bracketed options '[' ']' element

/-- A key with the element that belongs to it. -/
def member (options : Options) (element : Parser Value) : Parser (String × Value) :=
  zipWith Prod.mk (amidBlanks options (string options.escapes) <* char ':') element

/-- An object.  Where a key is repeated the last value counts, at the place of the first. -/
def object (options : Options) (element : Parser Value) : Parser Value :=
  (fun entries => Value.object (.ofList entries))
    <$> bracketed options '\x7b' '\x7d' (member options element)

/-! ## Values -/

/-- The kinds of value that have no parts. -/
def scalars (options : Options) : List (Parser Value) :=
  [null, bool, Value.number <$> number, Value.string <$> string options.escapes]

/-- The kinds of value that are made of elements. -/
def containers (options : Options) (element : Parser Value) : List (Parser Value) :=
  [array options element, object options element]

/-- A value amid blanks, with at most `depth` brackets open at once. -/
def value (options : Options) : Nat → Parser Value
  | 0 => amidBlanks options (choice (scalars options))
  | depth + 1 =>
      let element := delay fun _ => value options depth
      amidBlanks options (choice (scalars options ++ containers options element))

/-- The fewer brackets may be open, the fewer kinds of value there are to choose from. -/
theorem value_zero (options : Options) :
    value options 0 = amidBlanks options (choice (scalars options)) := rfl

theorem value_succ (options : Options) (depth : Nat) :
    value options (depth + 1) =
      amidBlanks options
        (choice (scalars options ++ containers options (value options depth))) := rfl

end TextGrammar.Json
