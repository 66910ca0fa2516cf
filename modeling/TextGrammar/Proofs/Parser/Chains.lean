import TextGrammar.Chain.Inspect
import TextGrammar.Proofs.Parser.Sequence

/-!
# Parsers on chains

Sequences, choices, counted repetitions and words may as well be run along a chain of parsers and
leave a chain of values.  Each finds then what its namesake finds along the list of the same
parsers, with the values linked.  So the laws for lists put together from two are laws for chains.
-/

namespace TextGrammar.Chain

universe u

variable {α : Type u}

/-! ## Running along a chain of parsers -/

/-- The parsers in turn, each where the one before ended, with their values behind those of
`found`, which are held in reverse. -/
def runSequence (found : List α) : Chain (Parser α) → Cursor → Option (List α × Cursor)
  | nil, cursor => some (found.reverse, cursor)
  | cons parser parsers, cursor =>
      match parser.run cursor with
      | none => none
      | some (value, rest) => parsers.runSequence (value :: found) rest

/-- All the parsers one after another, with their values linked. -/
def sequence (parsers : Chain (Parser α)) : Parser (Chain α) :=
  ⟨fun cursor => (parsers.runSequence [] cursor).map fun (values, rest) => (ofList values, rest)⟩

/-- The parser `times` times over. -/
def count (times : Nat) (parser : Parser α) : Parser (Chain α) :=
  sequence (replicate times parser)

/-- What the first of the parsers that succeeds finds. -/
def runChoice : Chain (Parser α) → Cursor → Option (α × Cursor)
  | nil, _ => none
  | cons parser parsers, cursor =>
      match parser.run cursor with
      | none => parsers.runChoice cursor
      | some result => some result

/-- The first of the parsers that succeeds, each tried from the same place. -/
def choice (parsers : Chain (Parser α)) : Parser α :=
  ⟨parsers.runChoice⟩

/-- The characters of `expected` in order, linked. -/
def literal (expected : String) : Parser (Chain Char) :=
  sequence ((ofText expected).map Parser.char)

/-! ## As along the list of the same parsers -/

theorem runSequence_eq (found : List α) (parsers : Chain (Parser α)) (cursor : Cursor) :
    parsers.runSequence found cursor = Parser.runSequence found parsers.toList cursor := by
  induction parsers generalizing found cursor with
  | nil => rfl
  | cons parser parsers ih =>
      rw [toList_cons, runSequence, Parser.runSequence]
      cases parser.run cursor with
      | none => rfl
      | some result => exact ih (result.1 :: found) result.2

theorem sequence_eq (parsers : Chain (Parser α)) :
    parsers.sequence = (Parser.sequence parsers.toList).map ofList := by
  ext1 cursor
  simp only [sequence, Parser.sequence, Parser.run_map, runSequence_eq]

theorem count_eq (times : Nat) (parser : Parser α) :
    count times parser = (Parser.count times parser).map ofList := by
  rw [count, sequence_eq, toList_replicate, Parser.count]

theorem runChoice_eq (parsers : Chain (Parser α)) (cursor : Cursor) :
    parsers.runChoice cursor = parsers.toList.findSome? (·.run cursor) := by
  induction parsers with
  | nil => rfl
  | cons parser parsers ih =>
      rw [toList_cons, List.findSome?_cons, runChoice, ih]
      cases parser.run cursor <;> rfl

theorem choice_eq (parsers : Chain (Parser α)) : parsers.choice = Parser.choice parsers.toList := by
  ext1 cursor
  exact runChoice_eq parsers cursor

theorem literal_eq (expected : String) :
    literal expected = (Parser.literal expected).map ofList := by
  rw [literal, sequence_eq, toList_map, toList_ofText, Parser.literal]

/-! ## Chains put together -/

theorem ofList_append (front back : List α) :
    ofList (front ++ back) = ofList front ++ ofList back :=
  toList_inj.mp (by simp)

/-- Values may be linked before they are put together or afterwards. -/
theorem map_zipWith_append (first second : Parser (List α)) :
    (Parser.zipWith (· ++ ·) first second).map ofList =
      Parser.zipWith (· ++ ·) (first.map ofList) (second.map ofList) := by
  ext1 cursor
  simp only [Parser.run_map, Parser.run_zipWith]
  cases first.run cursor with
  | none => rfl
  | some result =>
      simp only [Option.bind_some, Option.map_some]
      cases second.run result.2 with
      | none => rfl
      | some resultBehind => simp only [Option.map_some, ofList_append]

theorem choice_append (front back : Chain (Parser α)) :
    (front ++ back).choice = (front.choice <|> back.choice) := by
  rw [choice_eq, toList_append, Parser.choice_append, ← choice_eq, ← choice_eq]

theorem sequence_append (front back : Chain (Parser α)) :
    (front ++ back).sequence = Parser.zipWith (· ++ ·) front.sequence back.sequence := by
  rw [sequence_eq, toList_append, Parser.sequence_append, map_zipWith_append, ← sequence_eq,
    ← sequence_eq]

theorem count_add (times more : Nat) (parser : Parser α) :
    count (times + more) parser =
      Parser.zipWith (· ++ ·) (count times parser) (count more parser) := by
  rw [count_eq, Parser.count_add, map_zipWith_append, ← count_eq, ← count_eq]

theorem literal_append (front back : String) :
    literal (front ++ back) = Parser.zipWith (· ++ ·) (literal front) (literal back) := by
  rw [literal_eq, Parser.literal_append, map_zipWith_append, ← literal_eq, ← literal_eq]

end TextGrammar.Chain
