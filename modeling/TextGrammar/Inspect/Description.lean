import TextGrammar.Text.Character

/-!
# Descriptions of data

A description shows how a datum is built: from words, tuples, records and sequences.  It can be laid
out on one line, or with each part on a line of its own.

Text and characters are shown between quotes.  Whatever could be mistaken for the end of the quotes,
or is not seen, is shown by an escape.
-/

namespace TextGrammar

/-- How a datum is built. -/
inductive Description where
  /-- Something shown as it stands. -/
  | word (text : String)
  /-- Parts in parentheses, behind a name, which may be empty. -/
  | tuple (name : String) (parts : List Description)
  /-- Named parts in braces, behind a name. -/
  | record (name : String) (parts : List (String × Description))
  /-- Items in brackets. -/
  | sequence (items : List Description)

namespace Description

instance : Inhabited Description := ⟨word ""⟩

/-- Blanks for `level` steps of indentation. -/
def indentation (level : Nat) : String :=
  .ofList (List.replicate (4 * level) ' ')

/-- A line's end, and the indentation of the next line.  Without a level everything stays on one
line, where `instead` takes its place. -/
def lineBreak (instead : String) : Option Nat → String
  | none => instead
  | some level => "\n" ++ indentation level

/-- What stands between two parts of something at a level: a comma, and a line's end or a blank. -/
def between (level : Option Nat) : String :=
  "," ++ lineBreak " " (level.map (· + 1))

/-- What stands behind the last part of something at a level.  Only on a line of its own does the
last part have a comma. -/
def ending (padding : String) (level : Option Nat) : String :=
  (if level.isSome then "," else "") ++ lineBreak padding level

mutual

/-- Write a description behind `out`: on one line, or over lines with the given level of
indentation. -/
def write (level : Option Nat) (out : String) : Description → String
  | word text => out ++ text
  | tuple name [] => out ++ name
  | tuple name (part :: parts) =>
      let inner := level.map (· + 1)
      let start := out ++ name ++ "(" ++ lineBreak "" inner
      writeParts level (part.write inner start) parts ++ ending "" level ++ ")"
  | record name [] => out ++ name
  | record name ((label, part) :: parts) =>
      let inner := level.map (· + 1)
      let start := out ++ name ++ " \x7b" ++ lineBreak " " inner ++ label ++ ": "
      writeFields level (part.write inner start) parts ++ ending " " level ++ "\x7d"
  | sequence [] => out ++ "[]"
  | sequence (item :: items) =>
      let inner := level.map (· + 1)
      let start := out ++ "[" ++ lineBreak "" inner
      writeParts level (item.write inner start) items ++ ending "" level ++ "]"

/-- Write the parts after the first behind `out`. -/
def writeParts (level : Option Nat) (out : String) : List Description → String
  | [] => out
  | part :: parts =>
      writeParts level (part.write (level.map (· + 1)) (out ++ between level)) parts

/-- Write the named parts after the first behind `out`. -/
def writeFields (level : Option Nat) (out : String) : List (String × Description) → String
  | [] => out
  | (label, part) :: parts =>
      let start := out ++ between level ++ label ++ ": "
      writeFields level (part.write (level.map (· + 1)) start) parts

end

/-- A description over several lines or on one. -/
def render (overLines : Bool) (description : Description) : String :=
  description.write (if overLines then some 0 else none) ""

end Description

universe u v

/-- Types whose data have a description. -/
class Inspect (α : Type u) where
  describe : α → Description

export Inspect (describe)

namespace Inspect

/-! ## Quoted text -/

/-- How a character is shown between quotes of the kind `quote`. -/
def escape (quote character : Char) : List Char :=
  match character with
  | '\\' => ['\\', '\\']
  | '\n' => ['\\', 'n']
  | '\r' => ['\\', 'r']
  | '\t' => ['\\', 't']
  | '\x00' => ['\\', '0']
  | character =>
      if character = quote then ['\\', quote]
      else if Text.isControl character then
        '\\' :: 'u' :: '\x7b' :: (Nat.toDigits 16 character.toNat ++ ['\x7d'])
      else [character]

/-- A text between double quotes. -/
def quotedText (text : String) : String :=
  (text.foldl (fun out character => (escape '"' character).foldl String.push out) "\"").push '"'

/-- A character between single quotes. -/
def quotedCharacter (character : Char) : String :=
  .ofList ('\'' :: (escape '\'' character ++ ['\'']))

/-! ## Data that is built in -/

instance : Inspect Unit := ⟨fun _ => .word "()"⟩

instance : Inspect Bool := ⟨fun value => .word (if value then "true" else "false")⟩

instance : Inspect Nat := ⟨fun value => .word (toString value)⟩

instance : Inspect Int := ⟨fun value => .word (toString value)⟩

instance : Inspect Char := ⟨fun value => .word (quotedCharacter value)⟩

instance : Inspect String := ⟨fun value => .word (quotedText value)⟩

instance {α : Type u} [Inspect α] : Inspect (Option α) where
  describe
    | none => .word "None"
    | some value => .tuple "Some" [describe value]

instance {α : Type u} {β : Type v} [Inspect α] [Inspect β] : Inspect (α × β) :=
  ⟨fun (left, right) => .tuple "" [describe left, describe right]⟩

instance {α : Type u} [Inspect α] : Inspect (List α) :=
  ⟨fun items => .sequence (items.map describe)⟩

end Inspect

end TextGrammar
