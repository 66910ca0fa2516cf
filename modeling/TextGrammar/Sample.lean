import TextGrammar.Parser.Recursion
import TextGrammar.Parser.Repetition

/-!
# Two grammars that refer to themselves

Nested parentheses have the number of pairs as their value:

    nest = ( nest ) | nothing

An opening parenthesis without its closing one fails the pair it belongs to, and the alternative
starts over in front of it.

Sums have the integer that they spell as their value:

    program = blank* sum
    sum     = term (+ blank* term)*
    term    = digit+ blank* | ( blank* sum ) blank*

A program has to reach the end of the text.  Numbers are limited to what a signed word of 64 bits
holds; sums are not.
-/

namespace TextGrammar

open TextGrammar.Parser

namespace Parentheses

/-- A pair of parentheses with more of them inside, or nothing.  The value is the number of
pairs. -/
def nest : Parser Nat :=
  fix fun nest => (· + 1) <$> (char '(' *> nest <* char ')') <|> pure 0

end Parentheses

namespace Sum

/-- The greatest number that a term may spell, 2^63 - 1. -/
def greatest : Nat := 0x7FFFFFFFFFFFFFFF

/-- Any number of blanks. -/
def blanks : Parser (List Char) :=
  many (char ' ')

/-- What `parser` finds, with the blanks behind it passed. -/
def token {α : Type} (parser : Parser α) : Parser α :=
  parser <* blanks

/-- The number that a run of digits spells, if it is not too great. -/
def number? (digits : String) : Option Int :=
  let value := Nat.ofDigitChars 10 digits.toList 0
  if value ≤ greatest then some value else none

/-- A number. -/
def number : Parser Int :=
  (token (many1 (satisfy Char.isDigit)).recognize).filterMap number?

/-- A number, or a sum in parentheses. -/
def term (sum : Parser Int) : Parser Int :=
  number <|> token (char '(') *> sum <* token (char ')')

/-- One term or more with a plus between any two. -/
def sum : Parser Int :=
  fix fun sum => List.foldr (· + ·) 0 <$> sepBy1 (term sum) (token (char '+'))

/-- A sum that is the whole text. -/
def program : Parser Int :=
  blanks *> sum <* endOfInput

end Sum

end TextGrammar
