import TextGrammar.Parser.Inspect

/-!
# Parsers of several things

Repetition goes on as long as its parser matches *and* the match leaves less text than there was.
It therefore ends for every parser whatever, also one that matches without passing anything or that
moves the cursor back; no property of the repeated parser is asked for.

Fixed sequences and choices run over a list of parsers.
-/

namespace TextGrammar

universe u v

namespace Parser

variable {α : Type u} {β : Type v}

/-! ## Repetition -/

/-- Matches of `parser` one behind the other from `cursor` on, for as long as each leaves less than
there was, in order behind the values of `found`, which are held in reverse. -/
def gather (parser : Parser α) (found : List α) (cursor : Cursor) : List α × Cursor :=
  match parser.run cursor with
  | none => (found.reverse, cursor)
  | some (value, rest) =>
      if rest.size < cursor.size then
        parser.gather (value :: found) rest
      else
        (found.reverse, cursor)
termination_by cursor.size

/-- One match or more.  A first match that leaves no less than there was does not count. -/
def many1 (parser : Parser α) : Parser (List α) :=
  ⟨fun cursor =>
    match parser.run cursor with
    | none => none
    | some (value, rest) =>
        if rest.size < cursor.size then some (parser.gather [value] rest) else none⟩

/-- Any number of matches, also none. -/
def many (parser : Parser α) : Parser (List α) :=
  parser.many1 <|> pure []

/-- One or more elements with a separator between any two.  A separator that no element follows is
left where it is, and separators yield no value. -/
def sepBy1 (element : Parser α) (separator : Parser β) : Parser (List α) :=
  zipWith List.cons element (many (zipWith (fun _ value => value) separator element))

theorem gather_of_none {parser : Parser α} {cursor : Cursor} (found : List α)
    (nothing : parser.run cursor = none) :
    parser.gather found cursor = (found.reverse, cursor) := by
  rw [gather, nothing]

theorem gather_of_lt {parser : Parser α} {cursor rest : Cursor} {value : α} (found : List α)
    (matched : parser.run cursor = some (value, rest)) (shrinks : rest.size < cursor.size) :
    parser.gather found cursor = parser.gather (value :: found) rest := by
  rw [gather, matched]
  simp only [if_pos shrinks]

theorem gather_of_not_lt {parser : Parser α} {cursor rest : Cursor} {value : α} (found : List α)
    (matched : parser.run cursor = some (value, rest)) (stays : ¬rest.size < cursor.size) :
    parser.gather found cursor = (found.reverse, cursor) := by
  rw [gather, matched]
  simp only [if_neg stays]

/-- The values already found only go in front. -/
theorem gather_eq (parser : Parser α) (found : List α) (cursor : Cursor) :
    parser.gather found cursor =
      (found.reverse ++ (parser.gather [] cursor).1, (parser.gather [] cursor).2) := by
  induction size : cursor.size using Nat.strongRecOn generalizing found cursor with
  | ind size ih =>
      subst size
      cases matched : parser.run cursor with
      | none => simp [gather_of_none _ matched]
      | some result =>
          obtain ⟨value, rest⟩ := result
          by_cases shrinks : rest.size < cursor.size
          · rw [gather_of_lt found matched shrinks, gather_of_lt [] matched shrinks,
              ih rest.size shrinks (value :: found) rest rfl, ih rest.size shrinks [value] rest rfl]
            simp
          · simp [gather_of_not_lt _ matched shrinks]

theorem run_many1 (parser : Parser α) (cursor : Cursor) :
    parser.many1.run cursor =
      match parser.run cursor with
      | none => none
      | some (value, rest) =>
          if rest.size < cursor.size then
            some (value :: (parser.gather [] rest).1, (parser.gather [] rest).2)
          else none := by
  simp only [many1]
  cases parser.run cursor with
  | none => rfl
  | some result =>
      obtain ⟨value, rest⟩ := result
      simp only [gather_eq parser [value]]
      rfl

/-- Repetition never fails: it yields what `gather` finds. -/
@[simp] theorem run_many (parser : Parser α) (cursor : Cursor) :
    parser.many.run cursor = some (parser.gather [] cursor) := by
  unfold many
  rw [run_orElse, run_many1, run_pure]
  cases matched : parser.run cursor with
  | none => simp [gather_of_none [] matched]
  | some result =>
      obtain ⟨value, rest⟩ := result
      by_cases shrinks : rest.size < cursor.size
      · simp [shrinks, gather_of_lt [] matched shrinks, gather_eq parser [value]]
      · simp [shrinks, gather_of_not_lt [] matched shrinks]

/-! ## Lists of parsers -/

/-- The parsers in turn, each where the one before ended, with their values behind those of
`found`, which are held in reverse. -/
def runSequence (found : List α) : List (Parser α) → Cursor → Option (List α × Cursor)
  | [], cursor => some (found.reverse, cursor)
  | parser :: parsers, cursor =>
      match parser.run cursor with
      | none => none
      | some (value, rest) => runSequence (value :: found) parsers rest

/-- All the parsers one after another.  It fails if any of them does. -/
def sequence (parsers : List (Parser α)) : Parser (List α) :=
  ⟨runSequence [] parsers⟩

/-- The parser `times` times over. -/
def count (times : Nat) (parser : Parser α) : Parser (List α) :=
  sequence (List.replicate times parser)

/-- What the first of the parsers that succeeds finds, each tried from the same place. -/
def choice (parsers : List (Parser α)) : Parser α :=
  ⟨fun cursor => parsers.findSome? (·.run cursor)⟩

/-- The characters of `expected` in order. -/
def literal (expected : String) : Parser (List Char) :=
  sequence (expected.toList.map char)

theorem runSequence_eq (found : List α) (parsers : List (Parser α)) (cursor : Cursor) :
    runSequence found parsers cursor =
      (runSequence [] parsers cursor).map fun (values, rest) =>
        (found.reverse ++ values, rest) := by
  induction parsers generalizing found cursor with
  | nil => simp [runSequence]
  | cons parser parsers ih =>
      simp only [runSequence]
      cases parser.run cursor with
      | none => rfl
      | some result =>
          obtain ⟨value, rest⟩ := result
          change runSequence (value :: found) parsers rest = (runSequence [value] parsers rest).map _
          rw [ih, ih [value]]
          simp [Option.map_map, Function.comp_def]

@[simp] theorem sequence_nil : sequence ([] : List (Parser α)) = pure [] := rfl

@[simp] theorem sequence_cons (parser : Parser α) (parsers : List (Parser α)) :
    sequence (parser :: parsers) = zipWith List.cons parser (sequence parsers) := by
  ext1 cursor
  simp only [sequence, runSequence, run_zipWith]
  cases parser.run cursor with
  | none => rfl
  | some result => simp [runSequence_eq [result.1]]

@[simp] theorem choice_nil : choice ([] : List (Parser α)) = fail := rfl

@[simp] theorem choice_cons (parser : Parser α) (parsers : List (Parser α)) :
    choice (parser :: parsers) = (parser <|> choice parsers) := by
  ext1 cursor
  simp only [choice, List.findSome?_cons, run_orElse]
  cases parser.run cursor <;> rfl

end Parser

end TextGrammar
