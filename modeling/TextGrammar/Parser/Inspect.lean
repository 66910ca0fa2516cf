import TextGrammar.Inspect.Description
import TextGrammar.Parser.Basic

/-!
# Looking at parsers

What can be seen of a parser is what it does at a cursor.  Each parser and each way to put parsers
together has an equation that says so; later modules use these equations and not the definitions.

A cursor is described by the text that remains.  Of a parser itself nothing can be shown.
-/

namespace TextGrammar

universe u v w

namespace Parser

variable {α : Type u} {β : Type v} {γ : Type w}

/-! ## What each parser does at a cursor -/

@[simp] theorem run_pure (value : α) (cursor : Cursor) :
    (pure value : Parser α).run cursor = some (value, cursor) := rfl

@[simp] theorem run_fail (cursor : Cursor) : (fail : Parser α).run cursor = none := rfl

@[simp] theorem run_failure (cursor : Cursor) : (failure : Parser α).run cursor = none := rfl

@[simp] theorem run_satisfy_nil (accepts : Char → Bool) :
    (satisfy accepts).run (.ofList []) = none := rfl

@[simp] theorem run_satisfy_cons (accepts : Char → Bool) (character : Char) (rest : List Char) :
    (satisfy accepts).run (.ofList (character :: rest)) =
      if accepts character then some (character, .ofList rest) else none := by
  simp [satisfy, Option.filter]

@[simp] theorem run_char_nil (expected : Char) : (char expected).run (.ofList []) = none := rfl

@[simp] theorem run_char_cons (expected character : Char) (rest : List Char) :
    (char expected).run (.ofList (character :: rest)) =
      if character = expected then some (character, .ofList rest) else none := by
  simp [char]

@[simp] theorem run_endOfInput (cursor : Cursor) :
    endOfInput.run cursor = if cursor.remaining = [] then some ((), cursor) else none := by
  simp [endOfInput]

@[simp] theorem run_map (f : α → β) (parser : Parser α) (cursor : Cursor) :
    (parser.map f).run cursor = (parser.run cursor).map fun (value, rest) => (f value, rest) :=
  rfl

@[simp] theorem run_functor_map {α β : Type u} (f : α → β) (parser : Parser α)
    (cursor : Cursor) :
    (f <$> parser).run cursor = (parser.run cursor).map fun (value, rest) => (f value, rest) :=
  rfl

@[simp] theorem run_andThen (parser : Parser α) (next : α → Parser β) (cursor : Cursor) :
    (parser.andThen next).run cursor =
      (parser.run cursor).bind fun (value, rest) => (next value).run rest := rfl

@[simp] theorem run_bind {α β : Type u} (parser : Parser α) (next : α → Parser β)
    (cursor : Cursor) :
    (parser >>= next).run cursor =
      (parser.run cursor).bind fun (value, rest) => (next value).run rest := rfl

@[simp] theorem run_seq {α β : Type u} (function : Parser (α → β)) (argument : Parser α)
    (cursor : Cursor) :
    (function <*> argument).run cursor =
      (function.run cursor).bind fun (f, rest) =>
        (argument.run rest).map fun (value, rest) => (f value, rest) := rfl

@[simp] theorem run_zipWith (f : α → β → γ) (first : Parser α) (second : Parser β)
    (cursor : Cursor) :
    (zipWith f first second).run cursor =
      (first.run cursor).bind fun (left, rest) =>
        (second.run rest).map fun (right, rest) => (f left right, rest) := rfl

@[simp] theorem run_seqLeft {α β : Type u} (first : Parser α) (second : Parser β)
    (cursor : Cursor) :
    (first <* second).run cursor =
      (first.run cursor).bind fun (value, rest) =>
        (second.run rest).map fun (_, rest) => (value, rest) := rfl

@[simp] theorem run_seqRight {α β : Type u} (first : Parser α) (second : Parser β)
    (cursor : Cursor) :
    (first *> second).run cursor =
      (first.run cursor).bind fun (_, rest) => second.run rest := by
  change (zipWith (fun _ value => value) first second).run cursor = _
  simp [zipWith]

@[simp] theorem run_or (first second : Parser α) (cursor : Cursor) :
    (first.or second).run cursor = (first.run cursor).or (second.run cursor) := rfl

@[simp] theorem run_orElse (first second : Parser α) (cursor : Cursor) :
    (first <|> second).run cursor = (first.run cursor).or (second.run cursor) := rfl

@[simp] theorem run_filterMap (f : α → Option β) (parser : Parser α) (cursor : Cursor) :
    (parser.filterMap f).run cursor =
      (parser.run cursor).bind fun (value, rest) =>
        (f value).map fun result => (result, rest) := rfl

@[simp] theorem run_recognize (parser : Parser α) (cursor : Cursor) :
    parser.recognize.run cursor =
      (parser.run cursor).map fun (_, rest) => (rest.consumedSince cursor, rest) := rfl

/-- What may be missing: the value of a match, or none with nothing passed. -/
@[simp] theorem run_optional (parser : Parser α) (cursor : Cursor) :
    (optional parser).run cursor =
      ((parser.run cursor).map fun (value, rest) => (some value, rest)).or
        (some (none, cursor)) := rfl

@[simp] theorem run_lookAhead (parser : Parser α) (cursor : Cursor) :
    parser.lookAhead.run cursor = (parser.run cursor).map fun (value, _) => (value, cursor) :=
  rfl

end Parser

/-! ## Descriptions -/

instance : Inspect Cursor := ⟨fun cursor => .record "Input" [("rest", describe cursor.text)]⟩

instance {α : Type u} : Inspect (Parser α) := ⟨fun _ => .word "Parser \x7b .. \x7d"⟩

end TextGrammar
