import TextGrammar.Json.Value

/-!
# Handing a value to a serializer

A serializer says what becomes of each kind of value, given what has become of its parts.  Values
are handed to it from the inside out, with array items and members in order.

The serializer of JSON trees builds a value again.  A tree has no place for a number that is not
finite, and holds null instead.
-/

namespace TextGrammar.Json

universe u

/-- What becomes of each kind of value. -/
structure Serializer (β : Type u) where
  null : β
  bool : Bool → β
  number : Binary64 → β
  string : String → β
  array : List β → β
  object : List (String × β) → β

namespace Value

variable {β : Type u}

mutual

/-- What a serializer makes of a value. -/
def serialize (serializer : Serializer β) : Value → β
  | null => serializer.null
  | bool value => serializer.bool value
  | number value => serializer.number value
  | string value => serializer.string value
  | array items => serializer.array (serializeItems serializer items)
  | object ⟨entries⟩ => serializer.object (serializeEntries serializer entries)

/-- What a serializer makes of each item. -/
def serializeItems (serializer : Serializer β) : List Value → List β
  | [] => []
  | item :: items => item.serialize serializer :: serializeItems serializer items

/-- What a serializer makes of each member's value. -/
def serializeEntries (serializer : Serializer β) :
    List (String × Value) → List (String × β)
  | [] => []
  | (key, value) :: entries =>
      (key, value.serialize serializer) :: serializeEntries serializer entries

end

end Value

/-- The serializer that builds JSON trees. -/
def Serializer.tree : Serializer Value where
  null := .null
  bool := .bool
  number value := if value.isFinite then .number value else .null
  string := .string
  array := .array
  object entries := .object (.ofList entries)

/-- The JSON tree of a value. -/
def Value.tree (value : Value) : Value :=
  value.serialize .tree

end TextGrammar.Json
