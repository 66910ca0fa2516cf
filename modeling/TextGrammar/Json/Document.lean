import TextGrammar.Json.Grammar

/-!
# Reading JSON texts

A reader takes one value off the front of a text, or reads a text that is one value and nothing
else, or takes values off a text one after another.  The first two also report what happened.
-/

namespace TextGrammar.Json

/-! ## Errors and events -/

/-- Why a text is not a document. -/
inductive ParseError where
  /-- No value stands at the start. -/
  | noValue
  /-- Something stands behind the value. -/
  | trailingInput
  deriving DecidableEq

/-- What is wrong, in words. -/
def ParseError.message : ParseError → String
  | .noValue => "input does not start with a JSON value"
  | .trailingInput => "unexpected input after JSON value"

/-- How much attention an event asks for. -/
inductive Level where
  | trace
  | debug
  deriving DecidableEq

/-- The name of a level. -/
def Level.name : Level → String
  | .trace => "TRACE"
  | .debug => "DEBUG"

/-- What a reader reports.  Sizes are in bytes. -/
inductive Event where
  /-- Reading starts on a text of the given size. -/
  | started (size : Nat)
  /-- No value stands at the start of a text of the given size. -/
  | noValue (size : Nat)
  /-- A value was followed by something else. -/
  | trailingInput (consumed remaining : Nat)
  deriving DecidableEq

namespace Event

/-- The level of an event. -/
def level : Event → Level
  | started _ => .trace
  | noValue _ => .debug
  | trailingInput _ _ => .debug

/-- What happened, in words. -/
def message : Event → String
  | started _ => "parsing JSON value"
  | noValue _ => "no JSON value at start of input"
  | trailingInput _ _ => "trailing input after JSON value"

/-- The numbers that go with an event, by name. -/
def fields : Event → List (String × Nat)
  | started size => [("len", size)]
  | noValue size => [("len", size)]
  | trailingInput consumed remaining => [("consumed", consumed), ("remaining", remaining)]

end Event

/-- A result with the events on the way to it, the earliest first. -/
structure Reported (α : Type) where
  result : α
  events : List Event

/-! ## Readers -/

/-- A JSON grammar with its options fixed. -/
structure Reader where
  options : Options := {}

namespace Reader

/-- The parser of one value amid blanks. -/
def value (reader : Reader) : Parser Value :=
  Json.value reader.options reader.options.maxDepth

/-- Take a value off the front of a text, and report. -/
def reportValue (reader : Reader) (text : String) : Reported (Option (Value × String)) :=
  let size := text.utf8ByteSize
  match reader.value.parse text with
  | none => ⟨none, [.started size, .noValue size]⟩
  | some found => ⟨some found, [.started size]⟩

/-- Read a text that is one value amid blanks, and report. -/
def reportDocument (reader : Reader) (text : String) : Reported (Except ParseError Value) :=
  let ⟨found, events⟩ := reader.reportValue text
  match found with
  | none => ⟨.error .noValue, events⟩
  | some (value, rest) =>
      if (Parser.endOfInput.parse rest).isSome then
        ⟨.ok value, events⟩
      else
        let remaining := rest.utf8ByteSize
        ⟨.error .trailingInput,
          events ++ [.trailingInput (text.utf8ByteSize - remaining) remaining]⟩

/-- Take a value off the front of a text.  What is behind it comes back with it. -/
def parseValue (reader : Reader) (text : String) : Option (Value × String) :=
  (reader.reportValue text).result

/-- Read a text that is one value amid blanks. -/
def parseDocument (reader : Reader) (text : String) : Except ParseError Value :=
  (reader.reportDocument text).result

/-- Take values off a text one after another, until there is none or nothing is left.  Each attempt
yields what `parseValue` yields, and the last one is the one that ended it. -/
def parseStream (reader : Reader) (text : String) : List (Option (Value × String)) :=
  match reader.parseValue text with
  | none => [none]
  | some (value, rest) =>
      if rest.utf8ByteSize < text.utf8ByteSize ∧ rest ≠ "" then
        some (value, rest) :: reader.parseStream rest
      else
        [some (value, rest)]
termination_by text.utf8ByteSize

theorem parseValue_eq (reader : Reader) (text : String) :
    reader.parseValue text = reader.value.parse text := by
  simp only [parseValue, reportValue]
  split <;> simp_all

/-- What is reported of a text hangs on the value at its start and on what is behind it. -/
theorem reportDocument_eq (reader : Reader) (text : String) :
    reader.reportDocument text =
      match reader.parseValue text with
      | none => ⟨.error .noValue, [.started text.utf8ByteSize, .noValue text.utf8ByteSize]⟩
      | some (value, rest) =>
          if rest = "" then ⟨.ok value, [.started text.utf8ByteSize]⟩
          else ⟨.error .trailingInput, [.started text.utf8ByteSize,
            .trailingInput (text.utf8ByteSize - rest.utf8ByteSize) rest.utf8ByteSize]⟩ := by
  have ending (rest : String) :
      (Parser.endOfInput.parse rest).isSome = decide (rest = "") := by
    simp only [Parser.parse, Parser.run_endOfInput, Cursor.remaining_ofText,
      String.toList_eq_nil_iff]
    split <;> simp_all
  rw [parseValue_eq]
  simp only [reportDocument, reportValue]
  cases reader.value.parse text with
  | none => rfl
  | some found =>
      obtain ⟨value, rest⟩ := found
      by_cases ended : rest = "" <;> simp [ending, ended]

/-- A document is a value with nothing behind it. -/
theorem parseDocument_eq (reader : Reader) (text : String) :
    reader.parseDocument text =
      match reader.parseValue text with
      | none => .error .noValue
      | some (value, rest) => if rest = "" then .ok value else .error .trailingInput := by
  rw [parseDocument, reportDocument_eq]
  cases reader.parseValue text with
  | none => rfl
  | some found =>
      obtain ⟨value, rest⟩ := found
      by_cases ended : rest = "" <;> simp [ended]

end Reader

/-- Take a value off the front of a text, with the default options. -/
def parseValue (text : String) : Option (Value × String) :=
  Reader.parseValue {} text

/-- Read a text that is one value amid blanks, with the default options. -/
def parseDocument (text : String) : Except ParseError Value :=
  Reader.parseDocument {} text

end TextGrammar.Json
