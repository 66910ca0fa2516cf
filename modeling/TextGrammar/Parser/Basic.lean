import TextGrammar.Cursor

/-!
# Parsers

A parser looks at a cursor and either finds nothing or yields a value with a later cursor.  Failure
carries no reason, and since cursors are values a failed attempt leaves no trace: an alternative
starts where the first attempt started.

This module holds the parsers that look at one character or none, and the ways to put two parsers
together.
-/

namespace TextGrammar

universe u v w

/-- A parser for values of type `α`. -/
structure Parser (α : Type u) where
  /-- What is found at a cursor, and where it ends. -/
  run : Cursor → Option (α × Cursor)

namespace Parser

variable {α : Type u} {β : Type v} {γ : Type w}

/-- Parsers that find the same everywhere are equal. -/
@[ext] protected theorem ext {left right : Parser α}
    (same : ∀ cursor, left.run cursor = right.run cursor) : left = right := by
  obtain ⟨leftRun⟩ := left
  obtain ⟨rightRun⟩ := right
  exact congrArg Parser.mk (funext same)

/-- Run a parser at the start of a text, giving its value and the text it left. -/
def parse (parser : Parser α) (text : String) : Option (α × String) :=
  (parser.run (.ofText text)).map fun (value, rest) => (value, rest.text)

/-! ## Parsers of one character or none -/

/-- Find `value` everywhere, passing nothing. -/
protected def pure (value : α) : Parser α :=
  ⟨fun cursor => some (value, cursor)⟩

/-- Find nothing anywhere. -/
def fail : Parser α :=
  ⟨fun _ => none⟩

/-- Pass one character of which `accepts` holds. -/
def satisfy (accepts : Char → Bool) : Parser Char :=
  ⟨fun cursor => cursor.next?.filter fun (character, _) => accepts character⟩

/-- Pass the character `expected`. -/
def char (expected : Char) : Parser Char :=
  satisfy (· == expected)

/-- Succeed at the end of the text only. -/
def endOfInput : Parser Unit :=
  ⟨fun cursor => if cursor.isEmpty then some ((), cursor) else none⟩

/-! ## Putting parsers together -/

/-- Change the value of every match. -/
protected def map (f : α → β) (parser : Parser α) : Parser β :=
  ⟨fun cursor => (parser.run cursor).map fun (value, rest) => (f value, rest)⟩

/-- Choose the parser for what follows by the value just found. -/
def andThen (parser : Parser α) (next : α → Parser β) : Parser β :=
  ⟨fun cursor => (parser.run cursor).bind fun (value, rest) => (next value).run rest⟩

/-- Run `first`, then `second` where it ended, and combine the two values. -/
def zipWith (f : α → β → γ) (first : Parser α) (second : Parser β) : Parser γ :=
  ⟨fun cursor => (first.run cursor).bind fun (left, rest) =>
    (second.run rest).map fun (right, rest) => (f left right, rest)⟩

/-- What `first` finds, or else what `second` finds from the same place. -/
protected def or (first second : Parser α) : Parser α :=
  ⟨fun cursor => (first.run cursor).or (second.run cursor)⟩

/-- Change the value of every match, refusing those for which `f` has none. -/
def filterMap (f : α → Option β) (parser : Parser α) : Parser β :=
  ⟨fun cursor => (parser.run cursor).bind fun (value, rest) =>
    (f value).map fun result => (result, rest)⟩

/-- Yield the text a match has passed in place of its value. -/
def recognize (parser : Parser α) : Parser String :=
  ⟨fun cursor => (parser.run cursor).map fun (_, rest) => (rest.consumedSince cursor, rest)⟩

/-- The value of a match, with nothing passed. -/
def lookAhead (parser : Parser α) : Parser α :=
  ⟨fun cursor => (parser.run cursor).map fun (value, _) => (value, cursor)⟩

instance : Inhabited (Parser α) := ⟨fail⟩

instance : Monad Parser where
  pure := Parser.pure
  map := Parser.map
  bind := andThen
  seq function argument := function.andThen fun f => (argument ()).map f
  seqLeft first second := zipWith (fun value _ => value) first (second ())
  seqRight first second := zipWith (fun _ value => value) first (second ())

instance : Alternative Parser where
  failure := fail
  orElse first second := first.or (second ())

end Parser

end TextGrammar
