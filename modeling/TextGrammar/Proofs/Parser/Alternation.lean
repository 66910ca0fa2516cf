import TextGrammar.Proofs.Parser.Separation

/-!
# Items and separators in turn

An item list goes on from item to separator to item, for as long as a separator with the item behind
it leaves less text than there was.  The first item need not pass anything.  Where the next pair is
not complete, or passes nothing, the list has ended, and it has ended in front of the separator.

Nothing is asked of items and separators: they may be empty, or begin in the same way.
-/

namespace TextGrammar.Parser

universe u v

variable {α : Type u} {β : Type v} {item : Parser α} {separator : Parser β}

/-! ## From place to place -/

/-- Items that each stand behind a separator, and with it leave less text than there was. -/
inductive Alternating (item : Parser α) (separator : Parser β) :
    Cursor → List α → Cursor → Prop where
  | done (cursor : Cursor) : Alternating item separator cursor [] cursor
  | step {start middle next rest : Cursor} {mark : β} {value : α} {values : List α} :
      separator.run start = some (mark, middle) → item.run middle = some (value, next) →
      next.size < start.size → Alternating item separator next values rest →
      Alternating item separator start (value :: values) rest

/-- There is no separator at `cursor`, or no item behind it, or the two leave no less text than
there is. -/
def NoFurther (item : Parser α) (separator : Parser β) (cursor : Cursor) : Prop :=
  separator.run cursor = none ∨
    ∃ mark middle, separator.run cursor = some (mark, middle) ∧
      (item.run middle = none ∨
        ∃ value rest, item.run middle = some (value, rest) ∧ ¬rest.size < cursor.size)

theorem run_behindSeparator_iff {start rest : Cursor} {value : α} :
    (behindSeparator separator item).run start = some (value, rest) ↔
      ∃ mark middle, separator.run start = some (mark, middle) ∧
        item.run middle = some (value, rest) := by
  simp only [behindSeparator, run_zipWith, Option.bind_eq_some_iff, Option.map_eq_some_iff,
    Prod.exists, Prod.mk.injEq]
  constructor
  · rintro ⟨mark, middle, marked, _, _, found, rfl, rfl⟩
    exact ⟨mark, middle, marked, found⟩
  · rintro ⟨mark, middle, marked, found⟩
    exact ⟨mark, middle, marked, value, rest, found, rfl, rfl⟩

theorem successive_behindSeparator_iff {start rest : Cursor} {values : List α} :
    Successive (behindSeparator separator item) start values rest ↔
      Alternating item separator start values rest := by
  constructor
  · intro successive
    induction successive with
    | done cursor => exact .done cursor
    | step matched shrinks _ ih =>
        obtain ⟨mark, middle, marked, found⟩ := run_behindSeparator_iff.mp matched
        exact .step marked found shrinks ih
  · intro alternating
    induction alternating with
    | done cursor => exact .done cursor
    | step marked found shrinks _ ih =>
        exact .step (run_behindSeparator_iff.mpr ⟨_, _, marked, found⟩) shrinks ih

theorem stuck_behindSeparator_iff {cursor : Cursor} :
    (behindSeparator separator item).Stuck cursor ↔ NoFurther item separator cursor := by
  constructor
  · intro stuck
    cases marked : separator.run cursor with
    | none => exact .inl marked
    | some result =>
        obtain ⟨mark, middle⟩ := result
        refine .inr ⟨mark, middle, marked, ?_⟩
        cases found : item.run middle with
        | none => exact .inl rfl
        | some result =>
            obtain ⟨value, rest⟩ := result
            exact .inr ⟨value, rest, rfl,
              stuck value rest (run_behindSeparator_iff.mpr ⟨mark, middle, marked, found⟩)⟩
  · intro noFurther value rest matched
    obtain ⟨mark, middle, marked, found⟩ := run_behindSeparator_iff.mp matched
    rcases noFurther with unmarked | ⟨_, _, markedAgain, missing | ⟨_, _, foundAgain, stays⟩⟩
    · simp [unmarked] at marked
    · rw [marked] at markedAgain
      cases markedAgain
      simp [missing] at found
    · rw [marked] at markedAgain
      cases markedAgain
      rw [found] at foundAgain
      cases foundAgain
      exact stays

/-! ## From text to text -/

/-- A text that stands for a value, with the separator in front of it. -/
structure Marked (α : Type u) where
  mark : List Char
  text : List Char
  value : α

/-- The separator and the text behind it. -/
def Marked.chars (marked : Marked α) : List Char :=
  marked.mark ++ marked.text

/-- In front of `tail` each separator is passed as such and each text gives its value, where it
stands, and not both of them are empty. -/
inductive InPlace (item : Parser α) (separator : Parser β) (tail : List Char) :
    List (Marked α) → Prop where
  | nil : InPlace item separator tail []
  | cons {first : Marked α} {others : List (Marked α)} {mark : β} :
      separator.run (.ofList (first.chars ++ (others.flatMap Marked.chars ++ tail))) =
        some (mark, .ofList (first.text ++ (others.flatMap Marked.chars ++ tail))) →
      item.run (.ofList (first.text ++ (others.flatMap Marked.chars ++ tail))) =
        some (first.value, .ofList (others.flatMap Marked.chars ++ tail)) →
      first.chars ≠ [] → InPlace item separator tail others →
      InPlace item separator tail (first :: others)

theorem InPlace.alternating {tail : List Char} {others : List (Marked α)}
    (inPlace : InPlace item separator tail others) :
    Alternating item separator (.ofList (others.flatMap Marked.chars ++ tail))
      (others.map Marked.value) (.ofList tail) := by
  induction inPlace with
  | nil => exact .done _
  | cons marked found filled _ ih =>
      rw [List.flatMap_cons, List.append_assoc]
      exact .step marked found (Cursor.size_lt_of_passed rfl filled) ih

theorem run_sepBy1_of_inPlace {tail text : List Char} {value : α} {others : List (Marked α)}
    (found : item.run (.ofList (text ++ (others.flatMap Marked.chars ++ tail))) =
      some (value, .ofList (others.flatMap Marked.chars ++ tail)))
    (inPlace : InPlace item separator tail others)
    (noFurther : NoFurther item separator (.ofList tail)) :
    (sepBy1 item separator).run (.ofList (text ++ (others.flatMap Marked.chars ++ tail))) =
      some (value :: others.map Marked.value, .ofList tail) :=
  run_sepBy1_eq_some_iff.mpr ⟨value, _, _, rfl, found,
    successive_behindSeparator_iff.mpr inPlace.alternating,
    stuck_behindSeparator_iff.mpr noFurther⟩

/-- An item list finds an item and those that stand behind separators, up to where there is no
further pair.  Hence of texts with separators between them, each of which is read in its place, all
are found, in order, and what is behind the last one is left. -/
theorem sepBy1_exact (item : Parser α) (separator : Parser β) :
    (∀ start values rest, (sepBy1 item separator).run start = some (values, rest) ↔
      ∃ first others middle, values = first :: others ∧ item.run start = some (first, middle) ∧
        Alternating item separator middle others rest ∧ NoFurther item separator rest) ∧
      ∀ (text tail : List Char) (value : α) (others : List (Marked α)),
        item.run (.ofList (text ++ (others.flatMap Marked.chars ++ tail))) =
          some (value, .ofList (others.flatMap Marked.chars ++ tail)) →
        InPlace item separator tail others → NoFurther item separator (.ofList tail) →
        (sepBy1 item separator).run (.ofList (text ++ (others.flatMap Marked.chars ++ tail))) =
          some (value :: others.map Marked.value, .ofList tail) := by
  constructor
  · intro start values rest
    rw [run_sepBy1_eq_some_iff]
    simp only [successive_behindSeparator_iff, stuck_behindSeparator_iff]
  · intro text tail value others found inPlace noFurther
    exact run_sepBy1_of_inPlace found inPlace noFurther

/-- Two digits with a semicolon between them, in front of another one that no digit follows. -/
theorem sepBy1_exact_trailing :
    (satisfy Char.isDigit).run (.ofList "1;2;".toList) = some ('1', .ofList ";2;".toList) ∧
      InPlace (satisfy Char.isDigit) (char ';') [';'] [⟨[';'], ['2'], '2'⟩] ∧
      NoFurther (satisfy Char.isDigit) (char ';') (.ofList [';']) ∧
      (sepBy1 (satisfy Char.isDigit) (char ';')).run (.ofList "1;2;".toList) =
        some (['1', '2'], .ofList [';']) := by
  have found : (satisfy Char.isDigit).run (.ofList "1;2;".toList) =
      some ('1', .ofList ";2;".toList) := run_satisfy_cons Char.isDigit '1' _
  have inPlace : InPlace (satisfy Char.isDigit) (char ';') [';'] [⟨[';'], ['2'], '2'⟩] :=
    .cons (run_char_cons ';' ';' _) (run_satisfy_cons Char.isDigit '2' _) (by decide) .nil
  have noFurther : NoFurther (satisfy Char.isDigit) (char ';') (.ofList [';']) :=
    .inr ⟨';', .ofList [], run_char_cons ';' ';' _, .inl rfl⟩
  exact ⟨found, inPlace, noFurther,
    (sepBy1_exact _ _).2 ['1'] [';'] '1' [⟨[';'], ['2'], '2'⟩] found inPlace noFurther⟩

end TextGrammar.Parser
