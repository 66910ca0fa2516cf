import TextGrammar.Parser.Recursion
import TextGrammar.Proofs.Cursor
import TextGrammar.Proofs.Parser.Repetition

/-!
# Parsers only move on

No combinator moves a cursor back or to another text: if the parsers it is given end further on in
the text they start in, so does the parser it makes.  Hence every parser that is built from them
ends further on, however its parts are chosen, by predicates, by values found or by recursion.

What a parser has passed is therefore always a front part of the text, cut off between two
characters, and what is passed by one parser behind another is what the two pass.
-/

namespace TextGrammar.Parser

/-! ## Where a match ends -/

section Advances

universe u v w

variable {α : Type u} {β : Type v} {γ : Type w}

/-- Every match ends further on in the text in which it starts. -/
def Advances (parser : Parser α) : Prop :=
  ∀ start value rest, parser.run start = some (value, rest) → rest.remaining <:+ start.remaining

theorem advances_pure (value : α) : (pure value : Parser α).Advances := by
  intro start found rest matched
  obtain ⟨-, rfl⟩ := Prod.mk.inj (Option.some.inj matched)
  exact List.suffix_rfl

theorem advances_fail : (fail : Parser α).Advances := by
  intro start value rest found
  simp at found

theorem advances_satisfy (accepts : Char → Bool) : (satisfy accepts).Advances := by
  intro start character rest found
  obtain ⟨passed, split, -⟩ := (reads_satisfy accepts _ _ _).mp found
  exact ⟨passed, split.symm⟩

theorem advances_endOfInput : endOfInput.Advances := by
  intro start value rest found
  rw [run_endOfInput] at found
  split at found
  · obtain ⟨-, rfl⟩ := Prod.mk.inj (Option.some.inj found)
    exact List.suffix_rfl
  · simp at found

namespace Advances

variable {parser first other : Parser α} {second : Parser β}

theorem map (f : α → β) (advances : parser.Advances) : (parser.map f).Advances := by
  intro start result rest found
  simp only [run_map, Option.map_eq_some_iff, Prod.exists, Prod.mk.injEq] at found
  obtain ⟨value, _, matched, -, rfl⟩ := found
  exact advances _ _ _ matched

theorem andThen {next : α → Parser β} (advances : parser.Advances)
    (advancesNext : ∀ value, (next value).Advances) : (parser.andThen next).Advances := by
  intro start result rest found
  simp only [run_andThen, Option.bind_eq_some_iff, Prod.exists] at found
  obtain ⟨value, middle, matched, matchedNext⟩ := found
  exact (advancesNext value _ _ _ matchedNext).trans (advances _ _ _ matched)

theorem zipWith (f : α → β → γ) (advances : first.Advances) (advancesSecond : second.Advances) :
    (Parser.zipWith f first second).Advances :=
  advances.andThen fun left => advancesSecond.map (f left)

theorem or (advances : parser.Advances) (advancesOther : other.Advances) :
    (parser.or other).Advances := by
  intro start value rest found
  rw [run_or, Option.or_eq_some_iff] at found
  rcases found with found | ⟨-, found⟩
  · exact advances _ _ _ found
  · exact advancesOther _ _ _ found

theorem filterMap (f : α → Option β) (advances : parser.Advances) :
    (parser.filterMap f).Advances := by
  intro start result rest found
  simp only [run_filterMap, Option.bind_eq_some_iff, Option.map_eq_some_iff, Prod.exists,
    Prod.mk.injEq] at found
  obtain ⟨value, _, matched, _, -, -, rfl⟩ := found
  exact advances _ _ _ matched

theorem recognize (advances : parser.Advances) : parser.recognize.Advances := by
  intro start text rest found
  simp only [run_recognize, Option.map_eq_some_iff, Prod.exists, Prod.mk.injEq] at found
  obtain ⟨value, _, matched, -, rfl⟩ := found
  exact advances _ _ _ matched

theorem optionally (advances : parser.Advances) : (optional parser).Advances := by
  intro start value rest found
  rcases run_optional_eq_some_iff.mp found with ⟨value, matched, -⟩ | ⟨-, -, rfl⟩
  · exact advances _ _ _ matched
  · exact List.suffix_rfl

/-- Nothing is passed at all. -/
theorem lookAhead (parser : Parser α) : parser.lookAhead.Advances := by
  intro start value rest found
  simp only [run_lookAhead, Option.map_eq_some_iff, Prod.exists, Prod.mk.injEq] at found
  obtain ⟨_, _, -, -, rfl⟩ := found
  exact List.suffix_rfl

/-- One match behind the other ends further on than each of them. -/
theorem successive (advances : parser.Advances) {start rest : Cursor} {values : List α}
    (succession : Successive parser start values rest) : rest.remaining <:+ start.remaining := by
  induction succession with
  | done cursor => exact List.suffix_rfl
  | step found _ _ ih => exact ih.trans (advances _ _ _ found)

theorem many1 (advances : parser.Advances) : parser.many1.Advances := by
  intro start values rest found
  obtain ⟨-, gathered⟩ := run_many1_eq_some_iff.mp found
  exact advances.successive (gather_eq_iff.mp gathered).1

theorem many (advances : parser.Advances) : parser.many.Advances :=
  advances.many1.or (advances_pure [])

theorem sequence {parsers : List (Parser α)} (advance : ∀ parser ∈ parsers, parser.Advances) :
    (Parser.sequence parsers).Advances := by
  induction parsers with
  | nil => exact advances_pure []
  | cons parser parsers ih =>
      obtain ⟨advances, advanceOthers⟩ := List.forall_mem_cons.mp advance
      rw [sequence_cons]
      exact advances.zipWith List.cons (ih advanceOthers)

theorem count (times : Nat) (advances : parser.Advances) :
    (Parser.count times parser).Advances := by
  refine sequence fun copy member => ?_
  rw [List.eq_of_mem_replicate member]
  exact advances

theorem choice {parsers : List (Parser α)} (advance : ∀ parser ∈ parsers, parser.Advances) :
    (Parser.choice parsers).Advances := by
  induction parsers with
  | nil => exact advances_fail
  | cons parser parsers ih =>
      obtain ⟨advances, advanceOthers⟩ := List.forall_mem_cons.mp advance
      rw [choice_cons]
      exact advances.or (ih advanceOthers)

theorem sepBy1 (advances : parser.Advances) (advancesSeparator : second.Advances) :
    (Parser.sepBy1 parser second).Advances :=
  advances.zipWith List.cons (advancesSeparator.zipWith _ advances).many

end Advances

theorem advances_literal (expected : String) : (literal expected).Advances := by
  refine Advances.sequence fun parser member => ?_
  obtain ⟨character, -, rfl⟩ := List.mem_map.mp member
  exact advances_satisfy _

end Advances

/-! ## Parsers built from combinators -/

section Built

variable {α β γ : Type}

/-- The parsers that are made by the combinators from parsers of the same kind, with any predicates
and functions.  What is built only when it is run may be built from the parser itself: then there is
no one tree of combinators for all places, but at each place a tree of those that are entered there,
and the parser does what that tree does. -/
inductive Built : {α : Type} → Parser α → Prop where
  | pure {α : Type} (value : α) : Built (Pure.pure value : Parser α)
  | fail {α : Type} : Built (fail : Parser α)
  | satisfy (accepts : Char → Bool) : Built (satisfy accepts)
  | char (expected : Char) : Built (char expected)
  | literal (expected : String) : Built (literal expected)
  | endOfInput : Built endOfInput
  | map {α β : Type} {parser : Parser α} (f : α → β) : Built parser → Built (parser.map f)
  | zipWith {α β γ : Type} {first : Parser α} {second : Parser β} (f : α → β → γ) :
      Built first → Built second → Built (zipWith f first second)
  | seqLeft {α β : Type} {first : Parser α} {second : Parser β} :
      Built first → Built second → Built (first <* second)
  | seqRight {α β : Type} {first : Parser α} {second : Parser β} :
      Built first → Built second → Built (first *> second)
  | or {α : Type} {first second : Parser α} :
      Built first → Built second → Built (first <|> second)
  | andThen {α β : Type} {parser : Parser α} {next : α → Parser β} :
      Built parser → (∀ value, Built (next value)) → Built (parser.andThen next)
  | filterMap {α β : Type} {parser : Parser α} (f : α → Option β) :
      Built parser → Built (parser.filterMap f)
  | recognize {α : Type} {parser : Parser α} : Built parser → Built parser.recognize
  | seq {α β : Type} {function : Parser (α → β)} {argument : Parser α} :
      Built function → Built argument → Built (function <*> argument)
  | delay {α : Type} {build : Unit → Parser α} : Built (build ()) → Built (delay build)
  | many {α : Type} {parser : Parser α} : Built parser → Built parser.many
  | many1 {α : Type} {parser : Parser α} : Built parser → Built parser.many1
  | sequence {α : Type} {parsers : List (Parser α)} :
      (∀ parser ∈ parsers, Built parser) → Built (sequence parsers)
  | count {α : Type} {parser : Parser α} (times : Nat) : Built parser → Built (count times parser)
  | choice {α : Type} {parsers : List (Parser α)} :
      (∀ parser ∈ parsers, Built parser) → Built (choice parsers)
  | optional {α : Type} {parser : Parser α} : Built parser → Built (optional parser)
  | lookAhead {α : Type} {parser : Parser α} : Built parser → Built parser.lookAhead
  | sepBy1 {α β : Type} {item : Parser α} {separator : Parser β} :
      Built item → Built separator → Built (sepBy1 item separator)
  | unrolled {α : Type} {parser : Parser α} {entered : Cursor → Parser α} :
      (∀ cursor, Built (entered cursor)) →
      (∀ cursor, parser.run cursor = (entered cursor).run cursor) → Built parser

namespace Built

/-- Every parser that is built from the combinators moves on. -/
theorem advances {parser : Parser α} (built : Built parser) : parser.Advances := by
  induction built with
  | pure value => exact advances_pure value
  | fail => exact advances_fail
  | satisfy accepts => exact advances_satisfy accepts
  | char expected => exact advances_satisfy _
  | literal expected => exact advances_literal expected
  | endOfInput => exact advances_endOfInput
  | map f _ ih => exact ih.map f
  | zipWith f _ _ ihFirst ihSecond => exact ihFirst.zipWith f ihSecond
  | seqLeft _ _ ihFirst ihSecond => exact ihFirst.zipWith _ ihSecond
  | seqRight _ _ ihFirst ihSecond => exact ihFirst.zipWith _ ihSecond
  | or _ _ ihFirst ihSecond => exact ihFirst.or ihSecond
  | andThen _ _ ih ihNext => exact ih.andThen ihNext
  | filterMap f _ ih => exact ih.filterMap f
  | recognize _ ih => exact ih.recognize
  | seq _ _ ihFunction ihArgument => exact ihFunction.andThen fun f => ihArgument.map f
  | delay _ ih => exact ih
  | many _ ih => exact ih.many
  | many1 _ ih => exact ih.many1
  | sequence _ ih => exact Advances.sequence ih
  | count times _ ih => exact ih.count times
  | choice _ ih => exact Advances.choice ih
  | optional _ ih => exact ih.optionally
  | lookAhead _ _ => exact Advances.lookAhead _
  | sepBy1 _ _ ihItem ihSeparator => exact ihItem.sepBy1 ihSeparator
  | unrolled _ same ih =>
      intro start value rest found
      rw [same] at found
      exact ih start start value rest found

/-- A grammar that refers to itself is built from the combinators, if the step that builds it from
itself uses nothing else. -/
theorem fix {step : Parser α → Parser α} (keeps : ∀ self, Built self → Built (step self)) :
    Built (Parser.fix step) := by
  -- Inside the grammar itself is used on shorter texts only, which is what the induction is on.
  have inside (size : Nat) : Built ((Parser.fix step).below size) := by
    induction size using Nat.strongRecOn with
    | ind size ih =>
        have entered (cursor : Cursor) : Built (if cursor.size < size then
            step ((Parser.fix step).below cursor.size) else .fail) := by
          split
          · next shorter => exact keeps _ (ih _ shorter)
          · exact .fail
        refine .unrolled entered fun cursor => ?_
        rw [run_below]
        split
        · exact run_fix step cursor
        · rfl
  exact .unrolled (fun cursor => keeps _ (inside cursor.size)) (run_fix step)

end Built

end Built

/-! ## What has been passed -/

section Recognize

variable {α β γ : Type} {parser first : Parser α} {second : Parser β}

/-- The text between the two ends of a match, with the text that is left, is the text in which it
starts.  It is cut off between two characters. -/
theorem Advances.run_recognize (advances : parser.Advances) {start rest : Cursor} {value : α}
    (found : parser.run start = some (value, rest)) :
    ∃ passed, parser.recognize.run start = some (passed, rest) ∧ passed ++ rest.text = start.text ∧
      String.Pos.Raw.IsValid start.text ⟨start.size - rest.size⟩ ∧
      passed.utf8ByteSize = start.size - rest.size := by
  have further := advances start value rest found
  refine ⟨rest.consumedSince start, ?_, Cursor.consumedSince_append_text further,
    Cursor.isValid_size_sub further, Cursor.utf8ByteSize_consumedSince further⟩
  rw [Parser.run_recognize, found, Option.map_some]

/-- What two parsers pass together is what the one passes and then the other. -/
theorem Advances.recognize_zipWith (advances : first.Advances) (advancesSecond : second.Advances)
    (f : α → β → γ) :
    (Parser.zipWith f first second).recognize =
      Parser.zipWith (· ++ ·) first.recognize second.recognize := by
  ext1 start
  simp only [Parser.run_recognize, run_zipWith]
  cases found : first.run start with
  | none => rfl
  | some result =>
      obtain ⟨left, middle⟩ := result
      cases foundSecond : second.run middle with
      | none => simp [foundSecond]
      | some resultSecond =>
          obtain ⟨right, rest⟩ := resultSecond
          have passed := Cursor.consumedSince_trans (advances _ _ _ found)
            (advancesSecond _ _ _ foundSecond)
          simp [foundSecond, passed]

end Recognize

end TextGrammar.Parser
