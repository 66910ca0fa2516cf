import TextGrammar.Decimal.Layout
import TextGrammar.Json.Escape
import TextGrammar.Json.Value

/-!
# The text of a value

A value is written on one line without blanks.  Numbers are written plainly; what has no numeral is
written as a word, which no reader of JSON accepts.

`Value.chars` says what the text is, and `Value.render` writes it from left to right into a string.
The main statement is that the two agree (`toList_render`).
-/

namespace TextGrammar.Json.Value

mutual

/-- The characters of a value's text. -/
def chars : Value → List Char
  | null => ['n', 'u', 'l', 'l']
  | bool true => ['t', 'r', 'u', 'e']
  | bool false => ['f', 'a', 'l', 's', 'e']
  | number value => value.chars .plain
  | string value => quoted value
  | array [] => ['[', ']']
  | array (item :: items) => '[' :: (item.chars ++ charsOfItems items ++ [']'])
  | object ⟨[]⟩ => ['{', '}']
  | object ⟨(key, value) :: entries⟩ =>
      '{' :: (quoted key ++ ':' :: value.chars ++ charsOfEntries entries ++ ['}'])

/-- Items, each behind a comma. -/
def charsOfItems : List Value → List Char
  | [] => []
  | item :: items => ',' :: item.chars ++ charsOfItems items

/-- Entries, each behind a comma. -/
def charsOfEntries : List (String × Value) → List Char
  | [] => []
  | (key, value) :: entries =>
      ',' :: quoted key ++ ':' :: value.chars ++ charsOfEntries entries

end

mutual

/-- Write a value behind `out`. -/
def write (out : String) : Value → String
  | null => out ++ "null"
  | bool true => out ++ "true"
  | bool false => out ++ "false"
  | number value => (value.chars .plain).foldl String.push out
  | string value => writeQuoted out value
  | array [] => out ++ "[]"
  | array (item :: items) => (writeItems (item.write (out.push '[')) items).push ']'
  | object ⟨[]⟩ => (out.push '{').push '}'
  | object ⟨(key, value) :: entries⟩ =>
      (writeEntries (value.write ((writeQuoted (out.push '{') key).push ':')) entries).push '}'

/-- Write items behind `out`, each behind a comma. -/
def writeItems (out : String) : List Value → String
  | [] => out
  | item :: items => writeItems (item.write (out.push ',')) items

/-- Write entries behind `out`, each behind a comma. -/
def writeEntries (out : String) : List (String × Value) → String
  | [] => out
  | (key, value) :: entries =>
      writeEntries (value.write ((writeQuoted (out.push ',') key).push ':')) entries

end

/-- The text of a value. -/
def render (value : Value) : String :=
  value.write ""

instance : ToString Value := ⟨render⟩

mutual

theorem toList_write (out : String) : (value : Value) →
    (value.write out).toList = out.toList ++ value.chars
  | null => by simp [write, chars]
  | bool true => by simp [write, chars]
  | bool false => by simp [write, chars]
  | number value => by simp [write, chars, toList_foldl_push]
  | string value => by simp [write, chars]
  | array [] => by simp [write, chars]
  | array (item :: items) => by
      simp [write, chars, toList_writeItems _ items, toList_write _ item]
  | object ⟨[]⟩ => by simp [write, chars]
  | object ⟨(key, value) :: entries⟩ => by
      simp [write, chars, toList_writeEntries _ entries, toList_write _ value]

theorem toList_writeItems (out : String) : (items : List Value) →
    (writeItems out items).toList = out.toList ++ charsOfItems items
  | [] => by simp [writeItems, charsOfItems]
  | item :: items => by
      simp [writeItems, charsOfItems, toList_writeItems _ items, toList_write _ item]

theorem toList_writeEntries (out : String) : (entries : List (String × Value)) →
    (writeEntries out entries).toList = out.toList ++ charsOfEntries entries
  | [] => by simp [writeEntries, charsOfEntries]
  | (key, value) :: entries => by
      simp [writeEntries, charsOfEntries, toList_writeEntries _ entries, toList_write _ value]

end

/-- What is written is the text of the value. -/
@[simp] theorem toList_render (value : Value) : value.render.toList = value.chars := by
  simp [render, toList_write]

end TextGrammar.Json.Value
