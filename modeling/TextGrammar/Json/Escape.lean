import TextGrammar.Text.Character
import TextGrammar.Text.Hexadecimal

/-!
# Escapes in JSON strings

Eight characters have an escape of two characters.  In writing only the quote and the backslash use
theirs; characters that would disturb a line of text are written as a code unit in hexadecimal, and
all others stand for themselves.
-/

namespace TextGrammar.Json

/-- The character that a backslash followed by the given character stands for. -/
def shortEscape? : Char → Option Char
  | '"' => some '"'
  | '\\' => some '\\'
  | '/' => some '/'
  | 'b' => some '\x08'
  | 'f' => some '\x0c'
  | 'n' => some '\n'
  | 'r' => some '\r'
  | 't' => some '\t'
  | _ => none

/-- Whether a character is written by its code unit: control characters and line separators.  All of
them have a single code unit. -/
def isWrittenByCode (character : Char) : Bool :=
  Text.isControl character || Text.isSeparator character

/-- How a character is written inside a string. -/
def escape (character : Char) : List Char :=
  if character = '"' ∨ character = '\\' then ['\\', character]
  else if isWrittenByCode character then '\\' :: 'u' :: Text.fourHexDigits character.toNat
  else [character]

/-- A string with its quotes. -/
def quoted (text : String) : List Char :=
  '"' :: (text.toList.flatMap escape ++ ['"'])

/-- Write a string with its quotes behind `out`. -/
def writeQuoted (out text : String) : String :=
  (text.foldl (fun out character => (escape character).foldl String.push out) (out.push '"')).push
    '"'

theorem toList_foldl_push (characters : List Char) (out : String) :
    (characters.foldl String.push out).toList = out.toList ++ characters := by
  induction characters generalizing out with
  | nil => simp
  | cons character characters ih => simp [ih]

@[simp] theorem toList_writeQuoted (out text : String) :
    (writeQuoted out text).toList = out.toList ++ quoted text := by
  have general : ∀ (characters : List Char) (out : String),
      (characters.foldl (fun out character => (escape character).foldl String.push out)
        out).toList = out.toList ++ characters.flatMap escape := by
    intro characters
    induction characters with
    | nil => simp
    | cons character characters ih => simp [ih, toList_foldl_push]
  simp [writeQuoted, quoted, String.foldl_eq_foldl_toList, general]

end TextGrammar.Json
