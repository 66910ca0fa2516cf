import TextGrammar.Proofs.Parser.Repetition

/-!
# Parsers that run over a list

A choice, a sequence, a counted repetition and a word each run over a list of parsers.  What they do
for a list put together from two is put together from what they do for the two: choices by trying
one behind the other, the rest by running one behind the other and joining the values.  A list can
therefore be cut anywhere without a change of what is found.

A sequence fails exactly where one of its parsers fails at the place to which those in front of it
lead, and a counted repetition where the parser fails behind fewer matches than are asked for.
Alternatives that begin with the same parser can share it.
-/

namespace TextGrammar.Parser

universe u v

variable {α : Type u}

/-! ## Choices -/

theorem fail_orElse (parser : Parser α) : (fail <|> parser) = parser := by
  ext1 cursor
  rw [run_orElse, run_fail, Option.none_or]

theorem orElse_assoc (first second third : Parser α) :
    ((first <|> second) <|> third) = (first <|> second <|> third) := by
  ext1 cursor
  simp only [run_orElse, Option.or_assoc]

/-- A choice tries its parsers from the first to the last, and behind the last it fails. -/
theorem choice_eq_foldr (parsers : List (Parser α)) :
    choice parsers = parsers.foldr (· <|> ·) fail := by
  induction parsers with
  | nil => exact choice_nil
  | cons parser parsers ih => rw [choice_cons, List.foldr_cons, ih]

/-- A choice among two lists is a choice among the first, or else among the second. -/
theorem choice_append (front back : List (Parser α)) :
    choice (front ++ back) = (choice front <|> choice back) := by
  induction front with
  | nil => rw [List.nil_append, choice_nil, fail_orElse]
  | cons parser front ih => rw [List.cons_append, choice_cons, choice_cons, ih, orElse_assoc]

/-! ## One behind the other -/

/-- Of three parsers the first two may be put together first, or the last two. -/
theorem zipWith_zipWith {β γ δ ε ζ : Type u} {joinRight : β → γ → δ} {withRight : α → δ → ζ}
    {joinLeft : α → β → ε} {withLeft : ε → γ → ζ}
    (same : ∀ left middle right,
      withRight left (joinRight middle right) = withLeft (joinLeft left middle) right)
    (first : Parser α) (second : Parser β) (third : Parser γ) :
    zipWith withRight first (zipWith joinRight second third) =
      zipWith withLeft (zipWith joinLeft first second) third := by
  ext1 start
  simp only [run_zipWith]
  cases first.run start with
  | none => rfl
  | some result =>
      simp only [Option.bind_some]
      cases second.run result.2 with
      | none => rfl
      | some resultSecond =>
          simp only [Option.bind_some, Option.map_some]
          cases third.run resultSecond.2 with
          | none => rfl
          | some resultThird => simp only [Option.map_some, same]

/-- What passes nothing and finds nothing in front of a list leaves the list. -/
theorem zipWith_append_pure_nil (parser : Parser (List α)) :
    zipWith (· ++ ·) (pure []) parser = parser := by
  ext1 start
  rw [run_zipWith, run_pure, Option.bind_some]
  exact Option.map_id_apply

/-- Alternatives that begin with the same parser begin with it and go on with one of the two. -/
theorem zipWith_orElse {β : Type u} {γ : Type v} (f : γ → α → β) (first : Parser γ)
    (second other : Parser α) :
    (zipWith f first second <|> zipWith f first other) = zipWith f first (second <|> other) := by
  ext1 start
  simp only [run_orElse, run_zipWith]
  cases first.run start with
  | none => rfl
  | some result =>
      simp only [Option.bind_some]
      cases second.run result.2 with
      | none => simp only [Option.map_none, Option.none_or]
      | some found => simp only [Option.map_some, Option.some_or]

theorem andThen_orElse {γ : Type v} (first : Parser γ) (second other : γ → Parser α) :
    (first.andThen second <|> first.andThen other) =
      first.andThen fun value => second value <|> other value := by
  ext1 start
  simp only [run_orElse, run_andThen]
  cases first.run start with
  | none => rfl
  | some result => simp only [Option.bind_some]

/-! ## Sequences -/

/-- The parsers match one behind the other, each where the one in front of it ended. -/
inductive InTurn : List (Parser α) → Cursor → List α → Cursor → Prop where
  | nil (cursor : Cursor) : InTurn [] cursor [] cursor
  | cons {parser : Parser α} {parsers : List (Parser α)} {start middle rest : Cursor} {value : α}
      {values : List α} :
      parser.run start = some (value, middle) → InTurn parsers middle values rest →
      InTurn (parser :: parsers) start (value :: values) rest

section Sequences

variable {parser : Parser α} {parsers : List (Parser α)} {start middle rest : Cursor} {value : α}
variable {values : List α}

theorem run_sequence_cons_of_none (refused : parser.run start = none) :
    (sequence (parser :: parsers)).run start = none := by
  rw [sequence_cons, run_zipWith, refused, Option.bind_none]

theorem run_sequence_cons_of_some (first : parser.run start = some (value, middle)) :
    (sequence (parser :: parsers)).run start =
      ((sequence parsers).run middle).map fun (values, rest) => (value :: values, rest) := by
  rw [sequence_cons, run_zipWith, first, Option.bind_some]

/-- What is found in turn is what the sequence finds. -/
theorem InTurn.run_sequence (inTurn : InTurn parsers start values rest) :
    (sequence parsers).run start = some (values, rest) := by
  induction inTurn with
  | nil cursor => exact run_pure [] cursor
  | cons first _ ih => rw [run_sequence_cons_of_some first, ih, Option.map_some]

/-- A sequence finds what its parsers find in turn, or one of them fails at the place to which those
in front of it lead. -/
theorem inTurn_or_fails (parsers : List (Parser α)) (start : Cursor) :
    (∃ values rest, InTurn parsers start values rest) ∨
      ∃ before parser after values middle, parsers = before ++ parser :: after ∧
        InTurn before start values middle ∧ parser.run middle = none := by
  induction parsers generalizing start with
  | nil => exact .inl ⟨[], start, .nil start⟩
  | cons parser parsers ih =>
      cases first : parser.run start with
      | none => exact .inr ⟨[], parser, parsers, [], start, rfl, .nil start, first⟩
      | some result =>
          cases ih result.2 with
          | inl found =>
              obtain ⟨values, rest, inTurn⟩ := found
              exact .inl ⟨result.1 :: values, rest, .cons first inTurn⟩
          | inr fails =>
              obtain ⟨before, culprit, after, values, middle, rfl, inTurn, refused⟩ := fails
              exact .inr ⟨parser :: before, culprit, after, result.1 :: values, middle, rfl,
                .cons first inTurn, refused⟩

/-- Behind a parser that fails in its turn nothing is found. -/
theorem InTurn.run_sequence_of_none (inTurn : InTurn parsers start values middle)
    (refused : parser.run middle = none) (after : List (Parser α)) :
    (sequence (parsers ++ parser :: after)).run start = none := by
  induction inTurn with
  | nil cursor => exact run_sequence_cons_of_none refused
  | cons first _ ih =>
      rw [List.cons_append, run_sequence_cons_of_some first, ih refused, Option.map_none]

theorem run_sequence_eq_some_iff :
    (sequence parsers).run start = some (values, rest) ↔ InTurn parsers start values rest := by
  constructor
  · intro found
    cases inTurn_or_fails parsers start with
    | inl inTurn =>
        obtain ⟨values, rest, inTurn⟩ := inTurn
        rw [inTurn.run_sequence] at found
        cases found
        exact inTurn
    | inr fails =>
        obtain ⟨before, parser, after, values, middle, rfl, inTurn, refused⟩ := fails
        rw [inTurn.run_sequence_of_none refused] at found
        cases found
  · exact InTurn.run_sequence

/-- A sequence fails exactly where one of its parsers fails in its turn. -/
theorem run_sequence_eq_none_iff :
    (sequence parsers).run start = none ↔
      ∃ before parser after values middle, parsers = before ++ parser :: after ∧
        InTurn before start values middle ∧ parser.run middle = none := by
  constructor
  · intro nothing
    cases inTurn_or_fails parsers start with
    | inl inTurn =>
        obtain ⟨values, rest, inTurn⟩ := inTurn
        rw [inTurn.run_sequence] at nothing
        cases nothing
    | inr fails => exact fails
  · rintro ⟨before, parser, after, values, middle, rfl, inTurn, refused⟩
    exact inTurn.run_sequence_of_none refused after

end Sequences

/-- A sequence of two lists is a sequence of the first and then of the second. -/
theorem sequence_append (front back : List (Parser α)) :
    sequence (front ++ back) = zipWith (· ++ ·) (sequence front) (sequence back) := by
  induction front with
  | nil => rw [List.nil_append, sequence_nil, zipWith_append_pure_nil]
  | cons parser front ih =>
      rw [List.cons_append, sequence_cons, sequence_cons, ih]
      apply zipWith_zipWith
      intro value values others
      rfl

/-! ## Counted repetition -/

/-- Matches of one parser one behind the other, of which any may pass nothing. -/
inductive Matches (parser : Parser α) : Cursor → List α → Cursor → Prop where
  | nil (cursor : Cursor) : Matches parser cursor [] cursor
  | cons {start middle rest : Cursor} {value : α} {values : List α} :
      parser.run start = some (value, middle) → Matches parser middle values rest →
      Matches parser start (value :: values) rest

section Counted

variable {parser : Parser α} {start rest : Cursor} {values : List α} {times : Nat}

theorem InTurn.length_eq {parsers : List (Parser α)}
    (inTurn : InTurn parsers start values rest) : values.length = parsers.length := by
  induction inTurn with
  | nil cursor => rfl
  | cons _ _ ih => rw [List.length_cons, List.length_cons, ih]

theorem InTurn.matches {parsers : List (Parser α)} (inTurn : InTurn parsers start values rest)
    (same : ∀ other ∈ parsers, other = parser) : Matches parser start values rest := by
  induction inTurn with
  | nil cursor => exact .nil cursor
  | cons first _ ih =>
      obtain ⟨rfl, others⟩ := List.forall_mem_cons.mp same
      exact .cons first (ih others)

theorem Matches.inTurn (matched : Matches parser start values rest) :
    InTurn (List.replicate values.length parser) start values rest := by
  induction matched with
  | nil cursor => exact .nil cursor
  | cons first _ ih => exact .cons first ih

/-- A counted repetition finds so many matches and nothing else. -/
theorem run_count_eq_some_iff :
    (count times parser).run start = some (values, rest) ↔
      Matches parser start values rest ∧ values.length = times := by
  rw [count, run_sequence_eq_some_iff]
  constructor
  · intro inTurn
    exact ⟨inTurn.matches fun _ => List.eq_of_mem_replicate,
      inTurn.length_eq.trans List.length_replicate⟩
  · rintro ⟨matched, rfl⟩
    exact matched.inTurn

/-- A counted repetition fails exactly where the parser fails behind fewer matches. -/
theorem run_count_eq_none_iff :
    (count times parser).run start = none ↔
      ∃ values middle, Matches parser start values middle ∧ values.length < times ∧
        parser.run middle = none := by
  rw [count, run_sequence_eq_none_iff]
  constructor
  · rintro ⟨before, culprit, after, values, middle, split, inTurn, refused⟩
    have same : ∀ other ∈ before ++ culprit :: after, other = parser := by
      rw [← split]
      exact fun _ => List.eq_of_mem_replicate
    rw [List.forall_mem_append, List.forall_mem_cons] at same
    obtain ⟨sameBefore, rfl, -⟩ := same
    have few : values.length < times := by
      have total := congrArg List.length split
      rw [List.length_replicate, List.length_append, List.length_cons] at total
      rw [inTurn.length_eq]
      omega
    exact ⟨values, middle, inTurn.matches sameBefore, few, refused⟩
  · rintro ⟨values, middle, matched, few, refused⟩
    obtain ⟨more, rfl⟩ := Nat.exists_eq_add_of_lt few
    refine ⟨List.replicate values.length parser, parser, List.replicate more parser, values, middle,
      ?_, matched.inTurn, refused⟩
    rw [← List.replicate_succ, List.replicate_append_replicate, Nat.add_assoc]

theorem Successive.matches (successive : Successive parser start values rest) :
    Matches parser start values rest := by
  induction successive with
  | done cursor => exact .nil cursor
  | step found _ _ ih => exact .cons found ih

/-- What a repetition finds is found by counting, if it is known how many matches there are. -/
theorem run_count_of_gather (gathered : parser.gather [] start = (values, rest)) :
    (count values.length parser).run start = some (values, rest) := by
  obtain ⟨successive, -⟩ := gather_eq_iff.mp gathered
  exact run_count_eq_some_iff.mpr ⟨successive.matches, rfl⟩

end Counted

/-- So many times and then some more is as often as both together. -/
theorem count_add (times more : Nat) (parser : Parser α) :
    count (times + more) parser = zipWith (· ++ ·) (count times parser) (count more parser) := by
  rw [count, ← List.replicate_append_replicate, sequence_append]
  rfl

/-! ## Words -/

/-- A word made of two is the one and then the other. -/
theorem literal_append (front back : String) :
    literal (front ++ back) = zipWith (· ++ ·) (literal front) (literal back) := by
  rw [literal, String.toList_append, List.map_append, sequence_append]
  rfl

/-- A word is found exactly where its characters come first, and what comes behind them is left. -/
theorem run_literal (expected : String) (text : List Char) :
    (literal expected).run (.ofList text) =
      if expected.toList <+: text then
        some (expected.toList, .ofList (text.drop expected.toList.length))
      else none := by
  by_cases comesFirst : expected.toList <+: text
  · obtain ⟨rest, rfl⟩ := comesFirst
    rw [if_pos (List.prefix_append _ _), List.drop_left]
    exact (reads_literal expected).run_append ⟨rfl, rfl⟩
  · rw [if_neg comesFirst]
    apply (reads_literal expected).skips.run_eq_none
    rintro _ rest split ⟨_, rfl, -⟩
    exact comesFirst ⟨rest, split.symm⟩

/-! ## All together -/

/-- Choices, sequences, counted repetitions and words of two lists, numbers or texts are made of
those of the one and of the other, wherever they are tried.  A choice is alternation from the first
parser to the last.  A sequence finds what its parsers find in turn, and fails exactly where one of
them fails in its turn.  A word is found exactly where it comes first, and the remainder is left.
Alternatives that begin with the same parser can be told apart behind it. -/
theorem lists_of_parsers_append :
    (∀ {α : Type u} (front back : List (Parser α)),
      choice (front ++ back) = (choice front <|> choice back) ∧
      choice front = front.foldr (· <|> ·) fail ∧
      sequence (front ++ back) = zipWith (· ++ ·) (sequence front) (sequence back) ∧
      ∀ start,
        (∀ values rest, (sequence front).run start = some (values, rest) ↔
          InTurn front start values rest) ∧
        ((sequence front).run start = none ↔
          ∃ before parser after values middle, front = before ++ parser :: after ∧
            InTurn before start values middle ∧ parser.run middle = none)) ∧
    (∀ {α : Type u} (times more : Nat) (parser : Parser α),
      count (times + more) parser =
        zipWith (· ++ ·) (count times parser) (count more parser)) ∧
    (∀ front back : String,
      literal (front ++ back) = zipWith (· ++ ·) (literal front) (literal back) ∧
      ∀ text : List Char, (literal front).run (.ofList text) =
        if front.toList <+: text then
          some (front.toList, .ofList (text.drop front.toList.length))
        else none) ∧
    (∀ {α β : Type u} {γ : Type v} (f : γ → α → β) (first : Parser γ) (second other : Parser α),
      (zipWith f first second <|> zipWith f first other) =
        zipWith f first (second <|> other)) ∧
    (∀ {α β : Type u} (first : Parser α) (second other : Parser β),
      (first *> second <|> first *> other) = first *> (second <|> other) ∧
      (first <* second <|> first <* other) = first <* (second <|> other)) ∧
    ∀ {α : Type u} {γ : Type v} (first : Parser γ) (second other : γ → Parser α),
      (first.andThen second <|> first.andThen other) =
        first.andThen fun value => second value <|> other value := by
  refine ⟨?_, count_add, ?_, zipWith_orElse, ?_, andThen_orElse⟩
  · intro α front back
    refine ⟨choice_append front back, choice_eq_foldr front, sequence_append front back, ?_⟩
    intro start
    refine ⟨?_, run_sequence_eq_none_iff⟩
    intro values rest
    exact run_sequence_eq_some_iff
  · intro front back
    exact ⟨literal_append front back, run_literal front⟩
  · intro α β first second other
    refine ⟨?_, ?_⟩
    · exact zipWith_orElse (fun _ value => value) first second other
    · exact zipWith_orElse (fun value _ => value) first second other

end TextGrammar.Parser
