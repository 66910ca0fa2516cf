import Mathlib.Data.List.Basic
import TextGrammar.Proofs.Json.Exactness
import TextGrammar.Proofs.Text.Utf16

/-!
# Strings spelled by code units

A text that is spelled by code units throughout, each behind a backslash and a `u`, is a string
exactly if the code units are well-formed UTF-16, and then it is the string that they encode.  Where
a half of a pair is alone there is no value at all.
-/

namespace TextGrammar.Json

open TextGrammar.Parser

/-! ## Escapes in a row -/

/-- A code unit as an escape. -/
inductive UnitEscape : List Char → Nat → Prop where
  | intro {digits : List Char} {unit : Nat} : CodeUnit digits unit →
      UnitEscape ('\\' :: 'u' :: digits) unit

section Escapes

variable {text : List Char} {units : List Nat}

/-- A row of escapes begins with a backslash, a `u` and the digits of its first code unit. -/
theorem exists_of_strung_unitEscape {first : Char} {behind : List Char}
    (spelled : Strung UnitEscape (first :: behind) units) :
    first = '\\' ∧ ∃ digits unit rest others, behind = 'u' :: (digits ++ rest) ∧
      units = unit :: others ∧ CodeUnit digits unit ∧ Strung UnitEscape rest others := by
  cases units with
  | nil => exact absurd (strung_nil.mp spelled) (List.cons_ne_nil _ _)
  | cons unit others =>
      obtain ⟨_, rest, split, ⟨digits⟩, strung⟩ := strung_cons.mp spelled
      obtain ⟨rfl, rfl⟩ := List.cons.inj split
      exact ⟨rfl, _, unit, rest, others, rfl, rfl, digits, strung⟩

/-- The escape that a row begins with spells the first code unit. -/
theorem strung_unitEscape_append {digits behind : List Char} {unit : Nat}
    (spelledDigits : CodeUnit digits unit)
    (spelled : Strung UnitEscape ('\\' :: 'u' :: (digits ++ behind)) units) :
    ∃ others, units = unit :: others ∧ Strung UnitEscape behind others := by
  obtain ⟨-, _, _, rest, others, split, rfl, otherDigits, strung⟩ :=
    exists_of_strung_unitEscape spelled
  obtain ⟨rfl, rfl⟩ := spelledDigits.append_inj otherDigits (List.cons.inj split).2
  exact ⟨others, rfl, strung⟩

theorem lt_of_strung_unitEscape (spelled : Strung UnitEscape text units) :
    ∀ unit ∈ units, unit < 0x10000 := by
  induction spelled with
  | nil => simp
  | cons escape _ ih =>
      cases escape with
      | intro digits => exact List.forall_mem_cons.mpr ⟨digits.lt, ih⟩

/-- There is no quote among escapes. -/
theorem quote_not_mem_of_strung_unitEscape (spelled : Strung UnitEscape text units) :
    '"' ∉ text := by
  induction spelled with
  | nil => simp
  | cons escape _ ih =>
      cases escape with
      | @intro digits _ spelled =>
          have noQuote : '"' ∉ digits := fun member => spelled.ne_of_mem member rfl rfl
          simp [ih, noQuote]

/-- An item that a row of escapes begins with spells the character that the first code unit, or the
first two, encode. -/
theorem Item.exists_of_strung {piece behind : List Char} {character : Char}
    (item : Item .json piece character) (spelled : Strung UnitEscape (piece ++ behind) units) :
    ∃ others, units = Text.codeUnits character ++ others ∧ Strung UnitEscape behind others := by
  cases item with
  | plain _ noBackslash _ =>
      exact absurd (exists_of_strung_unitEscape spelled).1 noBackslash
  | short escape =>
      obtain ⟨-, _, _, _, _, split, -⟩ := exists_of_strung_unitEscape spelled
      obtain ⟨rfl, -⟩ := List.cons.inj split
      cases escape
  | unit digits =>
      obtain ⟨others, rfl, strung⟩ := strung_unitEscape_append digits spelled
      rw [Text.codeUnits_of_lt digits.lt]
      exact ⟨others, rfl, strung⟩
  | pair highDigits highFrom highTo lowDigits lowFrom lowTo code =>
      have combined := Text.combine?_eq_some_iff.mpr ⟨⟨highFrom, highTo⟩, ⟨lowFrom, lowTo⟩, code⟩
      rw [List.cons_append, List.cons_append, List.append_assoc] at spelled
      obtain ⟨_, rfl, second⟩ := strung_unitEscape_append highDigits spelled
      obtain ⟨others, rfl, strung⟩ := strung_unitEscape_append lowDigits second
      rw [Text.codeUnits_of_combine? combined]
      exact ⟨others, rfl, strung⟩

/-- The characters that a row of escapes spells are encoded by its code units. -/
theorem encode_of_strung_item {characters : List Char} (items : Strung (Item .json) text characters)
    (spelled : Strung UnitEscape text units) : Text.encode characters = units := by
  induction items generalizing units with
  | nil =>
      cases units with
      | nil => rfl
      | cons unit units =>
          obtain ⟨_, _, empty, ⟨_⟩, -⟩ := strung_cons.mp spelled
          exact absurd empty.symm (List.cons_ne_nil _ _)
  | cons item _ ih =>
      obtain ⟨others, rfl, strung⟩ := item.exists_of_strung spelled
      rw [Text.encode_cons, ih strung]

/-- Escapes whose code units encode some characters spell these characters. -/
theorem strung_item_of_encode (characters : List Char)
    (spelled : Strung UnitEscape text (Text.encode characters)) :
    Strung (Item .json) text characters := by
  induction characters generalizing text with
  | nil =>
      rw [strung_nil.mp spelled]
      exact .nil
  | cons character characters ih =>
      rw [Text.encode_cons] at spelled
      rcases Text.codeUnits_cases character with ⟨-, single⟩ | ⟨high, low, pair, combined⟩
      · rw [single, List.singleton_append, strung_cons] at spelled
        obtain ⟨_, behind, rfl, ⟨digits⟩, others⟩ := spelled
        exact .cons (.unit digits) (ih others)
      · rw [pair, List.cons_append, List.singleton_append, strung_cons] at spelled
        obtain ⟨_, _, rfl, ⟨highDigits⟩, second⟩ := spelled
        obtain ⟨_, behind, rfl, ⟨lowDigits⟩, others⟩ := strung_cons.mp second
        obtain ⟨⟨highFrom, highTo⟩, ⟨lowFrom, lowTo⟩, code⟩ :=
          Text.combine?_eq_some_iff.mp combined
        have item := Item.pair highDigits highFrom highTo lowDigits lowFrom lowTo code
        have strung := Strung.cons item (ih others)
        simpa using strung

end Escapes

/-! ## Quotations -/

/-- A string in quotes. -/
def inQuotes (body : List Char) : String :=
  .ofList ('"' :: (body ++ ['"']))

namespace Reader

variable {reader : Reader} {body : List Char}

/-- If there is no quote within, then what is read in quotes is read up to the last quote. -/
theorem parseValue_inQuotes (escapes : reader.options.escapes = .json) (noQuote : '"' ∉ body)
    {value : Value} {rest : String}
    (found : reader.parseValue (inQuotes body) = some (value, rest)) :
    rest = "" ∧ ∃ content : String, value = .string content ∧
      Strung (Item .json) body content.toList := by
  obtain ⟨passed, split, before⟩ := reader.parseValue_eq_some_iff.mp found
  rw [inQuotes, String.toList_ofList] at split
  obtain ⟨announced, core, after, splitCore, bare, -⟩ :=
    before.of_black split (not_isBlank_of_not_isWhiteSpace (by decide) _)
  cases value with
  | string content =>
      have quotation := bare_string_iff.mp bare
      rw [escapes] at quotation
      cases quotation with
      | @intro other characters items =>
          have same : body ++ '"' :: [] = other ++ '"' :: (after ++ rest.toList) := by
            simpa using splitCore
          rw [List.append_cons_inj_of_notMem noQuote List.not_mem_nil] at same
          obtain ⟨rfl, -, nil⟩ := same
          rw [eq_comm, List.append_eq_nil_iff, String.toList_eq_nil_iff] at nil
          exact ⟨nil.2, _, rfl, by rwa [String.toList_ofList]⟩
  | null | bool | number | array | object => exact absurd (Option.some.inj announced) nofun

/-- What escapes in a row, in quotes, mean is the text that their code units encode. -/
theorem parseDocument_inQuotes_eq_ok_iff {units : List Nat}
    (escapes : reader.options.escapes = .json) (spelled : Strung UnitEscape body units)
    {value : Value} :
    reader.parseDocument (inQuotes body) = .ok value ↔
      ∃ content : String, value = .string content ∧ Text.encode content.toList = units := by
  constructor
  · intro read
    rw [parseDocument_eq_ok_iff_parseValue] at read
    have noQuote := quote_not_mem_of_strung_unitEscape spelled
    obtain ⟨-, content, same, items⟩ := parseValue_inQuotes escapes noQuote read
    exact ⟨content, same, encode_of_strung_item items spelled⟩
  · rintro ⟨content, rfl, rfl⟩
    have quotation := Quotation.intro (strung_item_of_encode content.toList spelled)
    rw [String.ofList_toList, ← escapes] at quotation
    rw [parseDocument_eq_ok_iff_parseValue, parseValue_eq_some_empty_iff, inQuotes,
      String.toList_ofList]
    exact (Bare.string quotation).element

/-- Escapes in a row, in quotes, are a document exactly if their code units are well-formed.  What
it means is then the text that these encode, so every text is read back from its code units.
Otherwise no value stands at the start. -/
theorem parseDocument_inQuotes (reader : Reader) (escapes : reader.options.escapes = .json)
    {body : List Char} {units : List Nat} (spelled : Strung UnitEscape body units) :
    (∀ value, reader.parseDocument (inQuotes body) = .ok value ↔
      ∃ content : String, value = .string content ∧ Text.encode content.toList = units) ∧
    ((∃ value, reader.parseDocument (inQuotes body) = .ok value) ↔ Text.WellFormed units) ∧
    (¬Text.WellFormed units → reader.parseDocument (inQuotes body) = .error .noValue) := by
  have means (value : Value) : reader.parseDocument (inQuotes body) = .ok value ↔
      ∃ content : String, value = .string content ∧ Text.encode content.toList = units :=
    parseDocument_inQuotes_eq_ok_iff escapes spelled
  have accepted : (∃ value, reader.parseDocument (inQuotes body) = .ok value) ↔
      Text.WellFormed units := by
    rw [Text.wellFormed_iff_exists_encode (lt_of_strung_unitEscape spelled)]
    constructor
    · rintro ⟨value, read⟩
      obtain ⟨content, -, encoded⟩ := (means value).mp read
      exact ⟨content.toList, encoded⟩
    · rintro ⟨characters, encoded⟩
      refine ⟨_, (means _).mpr ⟨.ofList characters, rfl, ?_⟩⟩
      rw [String.toList_ofList, encoded]
  refine ⟨means, accepted, fun broken => ?_⟩
  cases found : reader.parseValue (inQuotes body) with
  | none => rw [parseDocument_eq, found]
  | some result =>
      obtain ⟨value, rest⟩ := result
      have noQuote := quote_not_mem_of_strung_unitEscape spelled
      obtain ⟨rfl, -⟩ := parseValue_inQuotes escapes noQuote found
      have read := (parseDocument_eq_ok_iff_parseValue reader).mpr found
      exact absurd (accepted.mp ⟨value, read⟩) broken

/-- The two halves of a pair, in small letters and capitals, are a character, and the same halves in
the other order are nothing. -/
theorem parseDocument_inQuotes_pair :
    Reader.parseDocument {} (inQuotes "\\ud83D\\uDe00".toList) = .ok (.string "😀") ∧
      Reader.parseDocument {} (inQuotes "\\uDe00\\ud83D".toList) = .error .noValue := by
  have high : UnitEscape "\\ud83D".toList 0xD83D :=
    .intro (.intro (a := 13) (b := 8) (c := 3) (d := 13) rfl rfl rfl rfl)
  have low : UnitEscape "\\uDe00".toList 0xDE00 :=
    .intro (.intro (a := 13) (b := 14) (c := 0) (d := 0) rfl rfl rfl rfl)
  have pair : Strung UnitEscape "\\ud83D\\uDe00".toList [0xD83D, 0xDE00] :=
    .cons high (.cons low .nil)
  have turned : Strung UnitEscape "\\uDe00\\ud83D".toList [0xDE00, 0xD83D] :=
    .cons low (.cons high .nil)
  refine ⟨((parseDocument_inQuotes {} rfl pair).1 _).mpr ⟨"😀", rfl, by decide⟩,
    (parseDocument_inQuotes {} rfl turned).2.2 fun whole => ?_⟩
  exact whole.of_cons.1 (by decide)

end Reader

end TextGrammar.Json
