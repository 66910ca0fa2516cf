import TextGrammar.Decimal.Layout
import TextGrammar.Inspect.Description
import TextGrammar.Json.Document

/-!
# Descriptions of JSON data

How values, members, options and readers are built.  Numbers show that they are fractions, and very
large and very small ones their power of ten.
-/

namespace TextGrammar.Json

instance : Inspect Binary64 := ⟨fun number => .word (.ofList (number.chars .descriptive))⟩

/-- The description of members whose entries have the given descriptions. -/
def Members.description (entries : List Description) : Description :=
  .record "Map" [("entries", .sequence entries)]

namespace Value

mutual

/-- How a value is built. -/
def description : Value → Description
  | null => .word "Null"
  | bool value => .tuple "Boolean" [describe value]
  | number value => .tuple "Number" [describe value]
  | string value => .tuple "String" [describe value]
  | array items => .tuple "Array" [.sequence (descriptionsOfItems items)]
  | object ⟨entries⟩ =>
      .tuple "Object" [Members.description (descriptionsOfEntries entries)]

/-- How each item is built. -/
def descriptionsOfItems : List Value → List Description
  | [] => []
  | item :: items => item.description :: descriptionsOfItems items

/-- How each entry is built. -/
def descriptionsOfEntries : List (String × Value) → List Description
  | [] => []
  | (key, value) :: entries =>
      .tuple "" [describe key, value.description] :: descriptionsOfEntries entries

end

end Value

instance : Inspect Value := ⟨Value.description⟩

instance : Inspect (Members Value) :=
  ⟨fun members => Members.description (members.entries.map describe)⟩

instance : Inspect EscapeMode where
  describe
    | .json => .word "Json"
    | .literal => .word "Literal"

instance : Inspect Options where
  describe options :=
    .record "ParserOptions"
      [("allow_unicode_whitespace", describe options.unicodeBlanks),
        ("string_escapes", describe options.escapes),
        ("max_depth", describe options.maxDepth)]

instance : Inspect Reader :=
  ⟨fun reader => .record "JsonParser" [("options", describe reader.options)]⟩

end TextGrammar.Json
