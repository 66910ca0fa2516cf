import TextGrammar.Binary64.Basic
import TextGrammar.Json.Members

/-!
# JSON values

A value is a scalar or a container.  `=` tells values apart down to the representation of their
numbers.  `==` compares numbers as numbers: the two zeros are equal, a value with `nan` in it does
not equal itself, and members have to stand in the same order.

Walks over a value are written as three functions that call each other, for a value, for the items
of an array and for the entries of an object.
-/

namespace TextGrammar.Json

/-- A JSON value. -/
inductive Value where
  | null
  | bool (value : Bool)
  | number (value : Binary64)
  | string (value : String)
  | array (items : List Value)
  | object (members : Members Value)

namespace Value

instance : Inhabited Value := ⟨null⟩

/-! ## What a value is -/

/-- Whether a value is null. -/
def isNull : Value → Bool
  | null => true
  | _ => false

/-- The truth value, if the value is one. -/
def bool? : Value → Option Bool
  | bool value => some value
  | _ => none

/-- The number, if the value is one. -/
def number? : Value → Option Binary64
  | number value => some value
  | _ => none

/-- The text, if the value is a string. -/
def string? : Value → Option String
  | string value => some value
  | _ => none

/-- The items, if the value is an array. -/
def array? : Value → Option (List Value)
  | array items => some items
  | _ => none

/-- The members, if the value is an object. -/
def object? : Value → Option (Members Value)
  | object members => some members
  | _ => none

/-! ## Nesting -/

mutual

/-- How many containers lie around the innermost part, at most: a scalar has depth 0, an empty
container 1. -/
def depth : Value → Nat
  | array items => depthOfItems items + 1
  | object ⟨entries⟩ => depthOfEntries entries + 1
  | null => 0
  | bool _ => 0
  | number _ => 0
  | string _ => 0

/-- The greatest depth of an item. -/
def depthOfItems : List Value → Nat
  | [] => 0
  | item :: items => max item.depth (depthOfItems items)

/-- The greatest depth of a member's value. -/
def depthOfEntries : List (String × Value) → Nat
  | [] => 0
  | (_, value) :: entries => max value.depth (depthOfEntries entries)

end

/-! ## Equality of values -/

mutual

/-- Whether two values are equal with their numbers compared as numbers. -/
def numericEq : Value → Value → Bool
  | null, null => true
  | bool left, bool right => left == right
  | number left, number right => left.numericEq right
  | string left, string right => left == right
  | array left, array right => numericEqItems left right
  | object ⟨left⟩, object ⟨right⟩ => numericEqEntries left right
  | _, _ => false

/-- Whether two lists of items are equal one by one. -/
def numericEqItems : List Value → List Value → Bool
  | [], [] => true
  | left :: lefts, right :: rights => left.numericEq right && numericEqItems lefts rights
  | _, _ => false

/-- Whether two lists of entries are equal one by one, with their keys. -/
def numericEqEntries : List (String × Value) → List (String × Value) → Bool
  | [], [] => true
  | (leftKey, left) :: lefts, (rightKey, right) :: rights =>
      leftKey == rightKey && left.numericEq right && numericEqEntries lefts rights
  | _, _ => false

end

instance : BEq Value := ⟨numericEq⟩

instance : BEq (Members Value) := ⟨fun left right => numericEqEntries left.entries right.entries⟩

end Value

end TextGrammar.Json
