import TextGrammar.Proofs.Parser.Repetition

/-!
# Repetition ends, and does all it can

A repetition tries its parser again for as long as the matches leave less text than there was.
Every turn takes at least a byte, so there are no more turns than bytes.  Nothing is asked of the
parser: it may match without passing anything, or end in a text that is no part of the one it
started in.

Only the matches that shorten the text count (`gather_of_shrinking_eq_map`).  A repetition finds the
longest succession of them, and one that asks for a match fails where there is none.
-/

namespace TextGrammar.Parser

universe u v

variable {α : Type u} {β : Type v} {parser : Parser α}

/-! ## The loop -/

/-- What the loop of a repetition yields that is at `cursor` and has found the values of `found`,
the last one first.  It is cut off, and yields nothing, when it is not over after `turns`
attempts. -/
def loop (parser : Parser α) : Nat → List α → Cursor → Option (List α × Cursor)
  | 0, _, _ => none
  | turns + 1, found, cursor =>
      match parser.run cursor with
      | none => some (found.reverse, cursor)
      | some (value, rest) =>
          if rest.size < cursor.size then
            parser.loop turns (value :: found) rest
          else
            some (found.reverse, cursor)

/-- The loop is over after one attempt more than there are bytes to go. -/
theorem loop_eq_gather {turns : Nat} (found : List α) {cursor : Cursor}
    (enough : cursor.size < turns) :
    parser.loop turns found cursor = some (parser.gather found cursor) := by
  induction turns generalizing found cursor with
  | zero => exact absurd enough (Nat.not_lt_zero _)
  | succ turns ih =>
      rw [loop]
      cases matched : parser.run cursor with
      | none => rw [gather_of_none found matched]
      | some result =>
          obtain ⟨value, rest⟩ := result
          by_cases shrinks : rest.size < cursor.size
          · rw [gather_of_lt found matched shrinks]
            simpa only [if_pos shrinks] using ih (value :: found) (by omega)
          · rw [gather_of_not_lt found matched shrinks]
            simp only [if_neg shrinks]

/-! ## The matches that count -/

/-- The matches of `parser` that leave less text than there was. -/
def shrinking (parser : Parser α) : Parser α :=
  ⟨fun cursor => (parser.run cursor).filter fun (_, rest) => rest.size < cursor.size⟩

theorem run_shrinking (parser : Parser α) (cursor : Cursor) :
    parser.shrinking.run cursor =
      (parser.run cursor).filter fun (_, rest) => rest.size < cursor.size := rfl

theorem run_shrinking_eq_some_iff {start rest : Cursor} {value : α} :
    parser.shrinking.run start = some (value, rest) ↔
      parser.run start = some (value, rest) ∧ rest.size < start.size := by
  simp [run_shrinking, Option.filter_eq_some_iff]

theorem run_shrinking_eq_none_iff {cursor : Cursor} :
    parser.shrinking.run cursor = none ↔ parser.Stuck cursor := by
  simp [run_shrinking, Stuck, Option.filter_eq_none_iff]

/-- Where the matches that count are the same, up to their values, so is what a repetition finds. -/
theorem gather_of_shrinking_eq_map {other : Parser β} {f : α → β}
    (same : other.shrinking = parser.shrinking.map f) (cursor : Cursor) :
    other.gather [] cursor =
      ((parser.gather [] cursor).1.map f, (parser.gather [] cursor).2) := by
  induction size : cursor.size using Nat.strongRecOn generalizing cursor with
  | ind size ih =>
      subst size
      have image : other.shrinking.run cursor = (parser.shrinking.map f).run cursor :=
        congrArg (·.run cursor) same
      rw [run_map] at image
      cases found : parser.shrinking.run cursor with
      | none =>
          rw [found, Option.map_none] at image
          rw [gather_of_stuck (run_shrinking_eq_none_iff.mp image),
            gather_of_stuck (run_shrinking_eq_none_iff.mp found)]
          rfl
      | some result =>
          obtain ⟨value, rest⟩ := result
          rw [found, Option.map_some] at image
          obtain ⟨matched, shrinks⟩ := run_shrinking_eq_some_iff.mp found
          obtain ⟨matchedOther, -⟩ := run_shrinking_eq_some_iff.mp image
          rw [gather_of_step matchedOther shrinks, gather_of_step matched shrinks,
            ih rest.size shrinks rest rfl]
          rfl

/-- One match that counts, and then any number of them. -/
theorem many1_eq_zipWith (parser : Parser α) :
    parser.many1 = zipWith List.cons parser.shrinking parser.many := by
  ext1 cursor
  rw [run_many1, run_zipWith, run_shrinking]
  cases parser.run cursor with
  | none => rfl
  | some result =>
      obtain ⟨value, rest⟩ := result
      by_cases shrinks : rest.size < cursor.size <;> simp [Option.filter, shrinks]

theorem many1_of_shrinking_eq_map {other : Parser β} {f : α → β}
    (same : other.shrinking = parser.shrinking.map f) :
    other.many1 = parser.many1.map (List.map f) := by
  ext1 cursor
  rw [many1_eq_zipWith, many1_eq_zipWith, same]
  simp only [run_zipWith, run_map, run_many, gather_of_shrinking_eq_map same]
  cases parser.shrinking.run cursor <;> rfl

/-- What is missing does not count. -/
theorem shrinking_optional (parser : Parser α) :
    (optional parser).shrinking = parser.shrinking.map some := by
  ext1 cursor
  rw [run_map, run_shrinking, run_shrinking, run_optional]
  cases parser.run cursor with
  | none => simp [Option.filter]
  | some result =>
      obtain ⟨value, rest⟩ := result
      by_cases shrinks : rest.size < cursor.size <;> simp [Option.filter, shrinks]

/-- What passes nothing never counts. -/
theorem shrinking_lookAhead (parser : Parser α) : parser.lookAhead.shrinking = fail := by
  ext1 cursor
  refine run_shrinking_eq_none_iff.mpr fun value rest found => ?_
  simp only [run_lookAhead, Option.map_eq_some_iff, Prod.exists, Prod.mk.injEq] at found
  obtain ⟨_, _, -, -, rfl⟩ := found
  exact Nat.lt_irrefl _

/-! ## What a repetition finds -/

/-- A repetition finds nothing only where it stays, and it stays where not even one match counts. -/
theorem run_many_eq_nil_iff {start rest : Cursor} :
    parser.many.run start = some ([], rest) ↔ rest = start ∧ parser.many1.run start = none := by
  rw [run_many, Option.some.injEq, many1_eq_zipWith, run_zipWith]
  cases found : parser.shrinking.run start with
  | none =>
      rw [gather_of_stuck (run_shrinking_eq_none_iff.mp found)]
      simp [eq_comm]
  | some result =>
      obtain ⟨matched, shrinks⟩ := run_shrinking_eq_some_iff.mp found
      rw [gather_of_step matched shrinks]
      simp

/-- A repetition is over after no more attempts than there are bytes and one.  One that asks for a
match finds the successive matches up to where no further one counts, of which there has to be one;
one that does not never fails. -/
theorem repetition_exact (parser : Parser α) :
    (∀ found start, parser.loop (start.size + 1) found start = some (parser.gather found start)) ∧
      (∀ start values rest, parser.many1.run start = some (values, rest) ↔
        values ≠ [] ∧ Successive parser start values rest ∧ parser.Stuck rest) ∧
      parser.many1 = zipWith List.cons parser.shrinking parser.many ∧
      (∀ start, parser.many.run start ≠ none ∧
        ∀ rest, parser.many.run start = some ([], rest) ↔
          rest = start ∧ parser.many1.run start = none) ∧
      (optional parser).many1 = parser.many1.map (List.map some) ∧
      parser.lookAhead.many1 = fail := by
  refine ⟨?_, ?_, many1_eq_zipWith parser, ?_, ?_, ?_⟩
  · intro found start
    exact loop_eq_gather found (Nat.lt_succ_self start.size)
  · intro start values rest
    rw [run_many1_eq_some_iff, gather_eq_iff]
  · intro start
    refine ⟨?_, fun rest => run_many_eq_nil_iff⟩
    rw [run_many]
    exact Option.some_ne_none _
  · exact many1_of_shrinking_eq_map (shrinking_optional parser)
  · rw [many1_eq_zipWith, shrinking_lookAhead]
    rfl

end TextGrammar.Parser
