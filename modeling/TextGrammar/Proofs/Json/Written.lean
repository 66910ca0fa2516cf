import TextGrammar.Json.Rendering
import TextGrammar.Proofs.Decimal.Written
import TextGrammar.Proofs.Json.Derivation
import TextGrammar.Proofs.Json.Walk

/-!
# The text of a value as a text of the language

What is written for a string is a quotation of it: every character is written by an item that spells
it.  What is written for a container are the texts of its parts with commas between them.
-/

namespace TextGrammar.Json

open TextGrammar.Parser TextGrammar.Decimal

/-! ## Strings -/

/-- What is written by its code has a single code unit. -/
theorem toNat_lt_of_isWrittenByCode {character : Char}
    (coded : isWrittenByCode character = true) : character.toNat < 0x10000 := by
  simp [isWrittenByCode, Text.isControl, Text.isSeparator, Text.inRanges, Text.controlRanges]
    at coded
  omega

theorem le_toNat_of_not_isWrittenByCode {character : Char}
    (plain : isWrittenByCode character = false) : 0x20 ≤ character.toNat := by
  simp [isWrittenByCode, Text.isControl, Text.isSeparator, Text.inRanges, Text.controlRanges]
    at plain
  omega

/-- What is written for a character spells it. -/
theorem item_escape (character : Char) : Item .json (escape character) character := by
  unfold escape
  split
  · next marked =>
      rcases marked with rfl | rfl
      · exact .short .quote
      · exact .short .backslash
  · next unmarked =>
      obtain ⟨noQuote, noBackslash⟩ := not_or.mp unmarked
      split
      · next coded => exact .unit (codeUnit_fourHexDigits (toNat_lt_of_isWrittenByCode coded))
      · next plain =>
          exact .plain noQuote noBackslash
            (le_toNat_of_not_isWrittenByCode (Bool.eq_false_of_not_eq_true plain))

/-- What is written for a string is a quotation of it. -/
theorem quotation_quoted (text : String) : Quotation .json (quoted text) text := by
  have strung (characters : List Char) :
      Strung (Item .json) (characters.flatMap escape) characters := by
    induction characters with
    | nil => exact .nil
    | cons character characters ih => exact .cons (item_escape character) ih
  have quotation := Quotation.intro (strung text.toList)
  rwa [String.ofList_toList] at quotation

/-! ## Containers -/

namespace Value

theorem charsOfItems_eq (items : List Value) :
    charsOfItems items = (items.map chars).flatMap (',' :: ·) := by
  induction items with
  | nil => rfl
  | cons item items ih => simp [charsOfItems, ih]

/-- An array is written as its items with commas between them. -/
theorem chars_array (items : List Value) :
    (array items).chars = '[' :: ([','].intercalate (items.map chars) ++ [']']) := by
  cases items with
  | nil => rfl
  | cons item items => rw [chars, charsOfItems_eq, List.map_cons, intercalate_cons]

/-- The text of an entry. -/
def entryChars (entry : String × Value) : List Char :=
  quoted entry.1 ++ ':' :: entry.2.chars

theorem charsOfEntries_eq (entries : List (String × Value)) :
    charsOfEntries entries = (entries.map entryChars).flatMap (',' :: ·) := by
  induction entries with
  | nil => rfl
  | cons entry entries ih => simp [charsOfEntries, ih, entryChars]

/-- An object is written as its entries with commas between them. -/
theorem chars_object (members : Members Value) :
    (object members).chars =
      '\x7b' :: ([','].intercalate (members.entries.map entryChars) ++ ['\x7d']) := by
  obtain ⟨entries⟩ := members
  cases entries with
  | nil => rfl
  | cons entry entries =>
      simp [chars, charsOfEntries_eq, intercalate_cons, entryChars]

/-! ## First characters -/

/-- The text of a value begins with something that is neither white space nor a delimiter. -/
theorem exists_cons_chars (value : Value) :
    ∃ first rest, value.chars = first :: rest ∧ Text.isWhiteSpace first = false ∧
      delimits first = false := by
  cases value with
  | null => exact ⟨'n', _, rfl, by decide, by decide⟩
  | bool truth => cases truth <;> exact ⟨_, _, rfl, by decide, by decide⟩
  | string text => exact ⟨'"', _, rfl, by decide, by decide⟩
  | array items => exact ⟨'[', _, chars_array items, by decide, by decide⟩
  | object members => exact ⟨'\x7b', _, chars_object members, by decide, by decide⟩
  | number value =>
      cases value with
      | finite negative rank =>
          have isFinite : (Binary64.finite negative rank).isFinite = true := rfl
          obtain ⟨_, numeral, -⟩ := Binary64.exists_numeral_chars isFinite
          obtain ⟨first, rest, split, begins⟩ := numeral.exists_cons
          have announced : announces first = some .number := by
            rcases begins with rfl | digit
            · rfl
            · exact announces_of_isDigit digit
          exact ⟨first, rest, split, not_isWhiteSpace_of_announces announced,
            not_delimits_of_announces announced⟩
      | infinity negative => cases negative <;> exact ⟨_, _, rfl, by decide, by decide⟩
      | nan => exact ⟨'N', _, rfl, by decide, by decide⟩

end Value

end TextGrammar.Json
