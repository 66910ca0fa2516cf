import TextGrammar.Parser.Repetition

/-!
# What a parser passes

A parser is described by the texts it passes.  The description names the passed text, the value
found in it and the text behind it, since many parsers look ahead to find their end.  It is exact:
where a text of the description begins the parser finds its value and stops behind it, and it finds
nothing else anywhere.  Descriptions are composed as parsers are.
-/

namespace TextGrammar

universe u v w

namespace Parser

variable {α : Type u} {β : Type v} {γ : Type w}

/-- `Step` leads over `passed` to a place in front of `rest` exactly when `Passes passed rest`. -/
def Crosses (Step : Cursor → Cursor → Prop) (Passes : List Char → List Char → Prop) : Prop :=
  ∀ start rest, Step start rest ↔
    ∃ passed, start.remaining = passed ++ rest.remaining ∧ Passes passed rest.remaining

/-- Two steps lead over the text of the one and then that of the other. -/
theorem Crosses.comp {Step Next : Cursor → Cursor → Prop}
    {Front Back : List Char → List Char → Prop} (crosses : Crosses Step Front)
    (crossesNext : Crosses Next Back) :
    Crosses (fun start rest => ∃ middle, Step start middle ∧ Next middle rest)
      fun passed rest =>
        ∃ front back, passed = front ++ back ∧ Front front (back ++ rest) ∧ Back back rest := by
  intro start rest
  constructor
  · rintro ⟨middle, step, next⟩
    obtain ⟨front, split, passes⟩ := (crosses _ _).mp step
    obtain ⟨back, splitBack, passesBack⟩ := (crossesNext _ _).mp next
    rw [splitBack] at split passes
    exact ⟨front ++ back, by rw [split, List.append_assoc], front, back, rfl, passes, passesBack⟩
  · rintro ⟨_, split, front, back, rfl, passes, passesBack⟩
    rw [List.append_assoc] at split
    exact ⟨.ofList (back ++ rest.remaining), (crosses _ _).mpr ⟨front, split, passes⟩,
      (crossesNext _ _).mpr ⟨back, rfl, passesBack⟩⟩

/-- `parser` finds `value` in `passed` in front of `rest` exactly when `Passes passed value rest`. -/
def Reads (parser : Parser α) (Passes : List Char → α → List Char → Prop) : Prop :=
  ∀ start value rest, parser.run start = some (value, rest) ↔
    ∃ passed, start.remaining = passed ++ rest.remaining ∧ Passes passed value rest.remaining

/-- `parser` finds something in `passed` in front of `rest`, whatever it is, exactly when
`Passes passed rest`. -/
def Skips (parser : Parser α) (Passes : List Char → List Char → Prop) : Prop :=
  Crosses (fun start rest => ∃ value, parser.run start = some (value, rest)) Passes

variable {parser first : Parser α} {second : Parser β}
variable {Passes First : List Char → α → List Char → Prop}
variable {Second : List Char → β → List Char → Prop}

namespace Reads

/-- For each value a description says over which texts the parser leads to it. -/
theorem crosses (reads : parser.Reads Passes) (value : α) :
    Crosses (fun start rest => parser.run start = some (value, rest))
      fun passed rest => Passes passed value rest :=
  fun start rest => reads start value rest

/-- What a description allows is found, and the parser stops behind it. -/
theorem run_append (reads : parser.Reads Passes) {passed rest : List Char} {value : α}
    (passes : Passes passed value rest) :
    parser.run (.ofList (passed ++ rest)) = some (value, .ofList rest) :=
  (reads _ _ _).mpr ⟨passed, rfl, passes⟩

/-- A description read as one of whole texts. -/
theorem parse_eq_some_iff (reads : parser.Reads Passes) {text rest : String} {value : α} :
    parser.parse text = some (value, rest) ↔
      ∃ passed, text.toList = passed ++ rest.toList ∧ Passes passed value rest.toList := by
  have behind : parser.parse text = some (value, rest) ↔
      parser.run (.ofText text) = some (value, .ofText rest) := by
    simp only [parse, Option.map_eq_some_iff, Prod.exists, Prod.mk.injEq]
    constructor
    · rintro ⟨_, cursor, found, rfl, rfl⟩
      rw [found, Cursor.ofText_text]
    · intro found
      exact ⟨value, .ofText rest, found, rfl, Cursor.text_ofText rest⟩
  rw [behind, reads (.ofText text) value (.ofText rest)]
  rfl

/-- Descriptions that allow the same describe the same parser. -/
theorem congr {Other : List Char → α → List Char → Prop} (reads : parser.Reads Passes)
    (same : ∀ passed value rest, Passes passed value rest ↔ Other passed value rest) :
    parser.Reads Other := by
  intro start value rest
  rw [reads start value rest]
  exact exists_congr fun passed => and_congr_right fun _ => same passed value rest.remaining

/-- A description that names the value also says where something is found. -/
theorem skips (reads : parser.Reads Passes) :
    parser.Skips fun passed rest => ∃ value, Passes passed value rest := by
  intro start rest
  constructor
  · rintro ⟨value, found⟩
    obtain ⟨passed, split, passes⟩ := (reads _ _ _).mp found
    exact ⟨passed, split, value, passes⟩
  · rintro ⟨passed, split, value, passes⟩
    exact ⟨value, (reads _ _ _).mpr ⟨passed, split, passes⟩⟩

end Reads

/-- A parser finds nothing where no allowed text begins. -/
theorem Skips.run_eq_none {Passes : List Char → List Char → Prop} (skips : parser.Skips Passes)
    {text : List Char} (refused : ∀ passed rest, text = passed ++ rest → ¬Passes passed rest) :
    parser.run (.ofList text) = none := by
  cases found : parser.run (.ofList text) with
  | none => rfl
  | some result =>
      obtain ⟨value, rest⟩ := result
      obtain ⟨passed, split, passes⟩ := (skips _ _).mp ⟨value, found⟩
      exact absurd passes (refused _ _ split)

theorem Skips.congr {Passes Other : List Char → List Char → Prop} (skips : parser.Skips Passes)
    (same : ∀ passed rest, Passes passed rest ↔ Other passed rest) : parser.Skips Other := by
  intro start rest
  rw [skips start rest]
  exact exists_congr fun passed => and_congr_right fun _ => same passed rest.remaining

/-! ## One character or none -/

theorem reads_pure (value : α) :
    (pure value : Parser α).Reads fun passed found _ => passed = [] ∧ found = value := by
  intro start found rest
  rw [run_pure, Option.some.injEq, Prod.mk.injEq]
  constructor
  · rintro ⟨rfl, rfl⟩
    exact ⟨[], rfl, rfl, rfl⟩
  · rintro ⟨_, split, rfl, rfl⟩
    exact ⟨rfl, Cursor.ext split⟩

theorem reads_fail : (fail : Parser α).Reads fun _ _ _ => False := by
  intro start value rest
  simp

theorem reads_satisfy (accepts : Char → Bool) :
    (satisfy accepts).Reads fun passed character _ =>
      passed = [character] ∧ accepts character = true := by
  intro start character rest
  have step : (satisfy accepts).run start = some (character, rest) ↔
      start.next? = some (character, rest) ∧ accepts character = true := by
    simp [satisfy, Option.filter_eq_some_iff]
  rw [step, Cursor.next?_eq_some_iff]
  constructor
  · rintro ⟨split, accepted⟩
    exact ⟨[character], split, rfl, accepted⟩
  · rintro ⟨_, split, rfl, accepted⟩
    exact ⟨split, accepted⟩

theorem reads_char (expected : Char) :
    (char expected).Reads fun passed character _ =>
      passed = [expected] ∧ character = expected := by
  refine (reads_satisfy _).congr ?_
  intro passed character rest
  rw [beq_iff_eq]
  constructor
  · rintro ⟨rfl, rfl⟩
    exact ⟨rfl, rfl⟩
  · rintro ⟨rfl, rfl⟩
    exact ⟨rfl, rfl⟩

theorem skips_char (expected : Char) :
    (char expected).Skips fun passed _ => passed = [expected] := by
  refine (reads_char expected).skips.congr fun passed rest => ?_
  simp

/-- Nothing is passed at the end, and the end is nowhere else. -/
theorem skips_endOfInput : endOfInput.Skips fun passed rest => passed = [] ∧ rest = [] := by
  intro start rest
  simp only [run_endOfInput, Option.ite_none_right_eq_some, Option.some.injEq, Prod.mk.injEq,
    true_and, exists_const]
  constructor
  · rintro ⟨atEnd, rfl⟩
    exact ⟨[], rfl, rfl, atEnd⟩
  · rintro ⟨_, split, rfl, atEnd⟩
    obtain rfl : start = rest := Cursor.ext split
    exact ⟨atEnd, rfl⟩

/-! ## Putting parsers together -/

namespace Reads

theorem map (f : α → β) (reads : parser.Reads Passes) :
    (parser.map f).Reads fun passed result rest =>
      ∃ value, Passes passed value rest ∧ result = f value := by
  intro start result rest
  simp only [run_map, Option.map_eq_some_iff, Prod.exists, Prod.mk.injEq]
  constructor
  · rintro ⟨value, cursor, found, rfl, rfl⟩
    obtain ⟨passed, split, passes⟩ := (reads _ _ _).mp found
    exact ⟨passed, split, value, passes, rfl⟩
  · rintro ⟨passed, split, value, passes, rfl⟩
    exact ⟨value, rest, (reads _ _ _).mpr ⟨passed, split, passes⟩, rfl, rfl⟩

/-- A parser chosen by the value in front of it passes what follows that value. -/
theorem andThen {next : α → Parser β} {Next : α → List Char → β → List Char → Prop}
    (reads : parser.Reads Passes) (nextReads : ∀ value, (next value).Reads (Next value)) :
    (parser.andThen next).Reads fun passed result rest =>
      ∃ front back value, passed = front ++ back ∧ Passes front value (back ++ rest) ∧
        Next value back result rest := by
  intro start result rest
  simp only [run_andThen, Option.bind_eq_some_iff, Prod.exists]
  constructor
  · rintro ⟨value, middle, found, foundNext⟩
    obtain ⟨front, split, passes⟩ := (reads _ _ _).mp found
    obtain ⟨back, splitNext, passesNext⟩ := (nextReads _ _ _ _).mp foundNext
    rw [splitNext] at split passes
    exact ⟨front ++ back, by rw [split, List.append_assoc], front, back, value, rfl, passes,
      passesNext⟩
  · rintro ⟨_, split, front, back, value, rfl, passes, passesNext⟩
    refine ⟨value, .ofList (back ++ rest.remaining), (reads _ _ _).mpr ⟨front, ?_, passes⟩,
      (nextReads _ _ _ _).mpr ⟨back, rfl, passesNext⟩⟩
    rw [split, List.append_assoc]
    rfl

theorem zipWith (f : α → β → γ) (reads : first.Reads First) (readsSecond : second.Reads Second) :
    (Parser.zipWith f first second).Reads fun passed result rest =>
      ∃ front back left right, passed = front ++ back ∧ First front left (back ++ rest) ∧
        Second back right rest ∧ result = f left right := by
  have composed : (Parser.zipWith f first second).Reads _ :=
    reads.andThen fun left => readsSecond.map (f left)
  refine composed.congr fun passed result rest => ?_
  constructor
  · rintro ⟨front, back, left, split, passes, right, passesSecond, value⟩
    exact ⟨front, back, left, right, split, passes, passesSecond, value⟩
  · rintro ⟨front, back, left, right, split, passes, passesSecond, value⟩
    exact ⟨front, back, left, split, passes, right, passesSecond, value⟩

theorem filterMap (f : α → Option β) (reads : parser.Reads Passes) :
    (parser.filterMap f).Reads fun passed result rest =>
      ∃ value, Passes passed value rest ∧ f value = some result := by
  intro start result rest
  simp only [run_filterMap, Option.bind_eq_some_iff, Option.map_eq_some_iff, Prod.exists,
    Prod.mk.injEq]
  constructor
  · rintro ⟨value, cursor, found, image, accepted, rfl, rfl⟩
    obtain ⟨passed, split, passes⟩ := (reads _ _ _).mp found
    exact ⟨passed, split, value, passes, accepted⟩
  · rintro ⟨passed, split, value, passes, accepted⟩
    exact ⟨value, rest, (reads _ _ _).mpr ⟨passed, split, passes⟩, result, accepted, rfl, rfl⟩

end Reads

theorem Reads.functorMap {β : Type u} (f : α → β) (reads : parser.Reads Passes) :
    (f <$> parser).Reads fun passed result rest =>
      ∃ value, Passes passed value rest ∧ result = f value :=
  reads.map f

section Dropped

variable {β : Type u} {second : Parser β}
variable {Second : List Char → β → List Char → Prop}
variable {Front Back : List Char → List Char → Prop}

theorem run_seqLeft_eq_some_iff {start rest : Cursor} {value : α} :
    (first <* second).run start = some (value, rest) ↔
      ∃ middle, first.run start = some (value, middle) ∧
        ∃ dropped, second.run middle = some (dropped, rest) := by
  simp only [run_seqLeft, Option.bind_eq_some_iff, Option.map_eq_some_iff, Prod.exists,
    Prod.mk.injEq]
  constructor
  · rintro ⟨_, middle, found, dropped, _, foundDropped, rfl, rfl⟩
    exact ⟨middle, found, dropped, foundDropped⟩
  · rintro ⟨middle, found, dropped, foundDropped⟩
    exact ⟨value, middle, found, dropped, rest, foundDropped, rfl, rfl⟩

theorem run_seqRight_eq_some_iff {start rest : Cursor} {value : β} :
    (first *> second).run start = some (value, rest) ↔
      ∃ middle, (∃ dropped, first.run start = some (dropped, middle)) ∧
        second.run middle = some (value, rest) := by
  simp only [run_seqRight, Option.bind_eq_some_iff, Prod.exists]
  constructor
  · rintro ⟨dropped, middle, foundDropped, found⟩
    exact ⟨middle, ⟨dropped, foundDropped⟩, found⟩
  · rintro ⟨middle, ⟨dropped, foundDropped⟩, found⟩
    exact ⟨dropped, middle, foundDropped, found⟩

/-- A value with something dropped behind it. -/
theorem Reads.seqLeft (reads : first.Reads First) (skips : second.Skips Back) :
    (first <* second).Reads fun passed value rest =>
      ∃ front back, passed = front ++ back ∧ First front value (back ++ rest) ∧
        Back back rest := by
  intro start value rest
  rw [run_seqLeft_eq_some_iff]
  exact (reads.crosses value).comp skips start rest

/-- A value with something dropped in front of it. -/
theorem Reads.seqRight (skips : first.Skips Front) (reads : second.Reads Second) :
    (first *> second).Reads fun passed value rest =>
      ∃ front back, passed = front ++ back ∧ Front front (back ++ rest) ∧
        Second back value rest := by
  intro start value rest
  rw [run_seqRight_eq_some_iff]
  exact skips.comp (reads.crosses value) start rest

/-- Two things that are both dropped. -/
theorem skips_zipWith {γ : Type w} (f : α → β → γ) (skips : first.Skips Front)
    (skipsSecond : second.Skips Back) :
    (zipWith f first second).Skips fun passed rest =>
      ∃ front back, passed = front ++ back ∧ Front front (back ++ rest) ∧ Back back rest := by
  intro start rest
  rw [← skips.comp skipsSecond start rest]
  simp only [run_zipWith, Option.bind_eq_some_iff, Option.map_eq_some_iff, Prod.exists,
    Prod.mk.injEq]
  constructor
  · rintro ⟨_, left, middle, found, right, _, foundSecond, -, rfl⟩
    exact ⟨middle, ⟨left, found⟩, right, foundSecond⟩
  · rintro ⟨middle, ⟨left, found⟩, right, foundSecond⟩
    exact ⟨_, left, middle, found, right, rest, foundSecond, rfl, rfl⟩

theorem Skips.seqLeft (skips : first.Skips Front) (skipsSecond : second.Skips Back) :
    (first <* second).Skips fun passed rest =>
      ∃ front back, passed = front ++ back ∧ Front front (back ++ rest) ∧ Back back rest :=
  skips_zipWith (fun left _ => left) skips skipsSecond

theorem Skips.seqRight (skips : first.Skips Front) (skipsSecond : second.Skips Back) :
    (first *> second).Skips fun passed rest =>
      ∃ front back, passed = front ++ back ∧ Front front (back ++ rest) ∧ Back back rest :=
  skips_zipWith (fun _ right => right) skips skipsSecond

end Dropped

theorem run_optional_eq_some_iff {start rest : Cursor} {found : Option α} :
    (optional parser).run start = some (found, rest) ↔
      (∃ value, parser.run start = some (value, rest) ∧ found = some value) ∨
        (parser.run start = none ∧ found = none ∧ start = rest) := by
  rw [run_optional, Option.or_eq_some_iff]
  simp only [Option.map_eq_some_iff, Option.map_eq_none_iff, Option.some.injEq, Prod.exists,
    Prod.mk.injEq]
  constructor
  · rintro (⟨value, _, match_, rfl, rfl⟩ | ⟨nothing, rfl, rfl⟩)
    · exact .inl ⟨value, match_, rfl⟩
    · exact .inr ⟨nothing, rfl, rfl⟩
  · rintro (⟨value, match_, rfl⟩ | ⟨nothing, rfl, rfl⟩)
    · exact .inl ⟨value, rest, match_, rfl, rfl⟩
    · exact .inr ⟨nothing, rfl, rfl⟩

/-- What may be missing is missing only where nothing could be found. -/
theorem Skips.optionally {Passes : List Char → List Char → Prop} (skips : parser.Skips Passes) :
    (optional parser).Skips fun passed rest =>
      Passes passed rest ∨ (passed = [] ∧ parser.run (.ofList rest) = none) := by
  intro start rest
  simp only [run_optional_eq_some_iff, Cursor.ofList_remaining]
  constructor
  · rintro ⟨_, ⟨value, found, -⟩ | ⟨nothing, -, rfl⟩⟩
    · obtain ⟨passed, split, passes⟩ := (skips _ _).mp ⟨value, found⟩
      exact ⟨passed, split, .inl passes⟩
    · exact ⟨[], rfl, .inr ⟨rfl, nothing⟩⟩
  · rintro ⟨passed, split, passes | ⟨rfl, nothing⟩⟩
    · obtain ⟨value, found⟩ := (skips _ _).mpr ⟨passed, split, passes⟩
      exact ⟨some value, .inl ⟨value, found, rfl⟩⟩
    · obtain rfl : start = rest := Cursor.ext split
      exact ⟨none, .inr ⟨nothing, rfl, rfl⟩⟩

/-- A part that may be missing, where the empty text counts as the missing part. -/
theorem Skips.optionalPart {Part Behind : List Char → Prop}
    (skips : parser.Skips fun passed rest => (passed ≠ [] ∧ Part passed) ∧ Behind rest)
    (missing : Part []) :
    (optional parser).Skips fun passed rest =>
      Part passed ∧ (passed ≠ [] → Behind rest) ∧
        (passed = [] → parser.run (.ofList rest) = none) := by
  refine skips.optionally.congr fun passed rest => ?_
  by_cases filled : passed = []
  · subst filled
    simp [missing]
  · simp [filled]

/-- The text that is passed is the text that lies between. -/
theorem Skips.recognize {Passes : List Char → List Char → Prop} (skips : parser.Skips Passes) :
    parser.recognize.Reads fun passed text rest =>
      text = String.ofList passed ∧ Passes passed rest := by
  intro start text rest
  have between {passed : List Char} (split : start.remaining = passed ++ rest.remaining) :
      rest.consumedSince start = String.ofList passed := by
    rw [← Cursor.ofList_remaining start, ← Cursor.ofList_remaining rest, split]
    exact Cursor.consumedSince_append passed rest.remaining
  have run : parser.recognize.run start = some (text, rest) ↔
      (∃ value, parser.run start = some (value, rest)) ∧ rest.consumedSince start = text := by
    simp only [run_recognize, Option.map_eq_some_iff, Prod.exists, Prod.mk.injEq]
    constructor
    · rintro ⟨value, _, found, same, rfl⟩
      exact ⟨⟨value, found⟩, same⟩
    · rintro ⟨⟨value, found⟩, same⟩
      exact ⟨value, rest, found, same, rfl⟩
  rw [run]
  constructor
  · rintro ⟨found, rfl⟩
    obtain ⟨passed, split, passes⟩ := (skips _ _).mp found
    exact ⟨passed, split, between split, passes⟩
  · rintro ⟨passed, split, rfl, passes⟩
    exact ⟨(skips _ _).mpr ⟨passed, split, passes⟩, between split⟩

/-! ## Alternatives -/

/-- There is no place at which both parsers find something. -/
def Excludes (left right : Parser α) : Prop :=
  ∀ cursor, left.run cursor = none ∨ right.run cursor = none

/-- Something is found only where a character that `Opens` holds of comes first. -/
def StartsWith (parser : Parser α) (Opens : Char → Prop) : Prop :=
  ∀ cursor result, parser.run cursor = some result →
    ∃ character, cursor.remaining.head? = some character ∧ Opens character

theorem Excludes.symm {left right : Parser α} (excludes : left.Excludes right) :
    right.Excludes left :=
  fun cursor => (excludes cursor).symm

theorem Reads.startsWith (reads : parser.Reads Passes) (Opens : Char → Prop)
    (opens : ∀ passed value rest, Passes passed value rest →
      ∃ character, passed.head? = some character ∧ Opens character) :
    parser.StartsWith Opens := by
  intro cursor result found
  obtain ⟨passed, split, passes⟩ := (reads _ _ _).mp found
  obtain ⟨character, head, opened⟩ := opens _ _ _ passes
  exact ⟨character, by simp [split, head], opened⟩

/-- Parsers for texts with different first characters exclude each other. -/
theorem StartsWith.excludes {left right : Parser α} {Left Right : Char → Prop}
    (leftStarts : left.StartsWith Left) (rightStarts : right.StartsWith Right)
    (different : ∀ character, Left character → ¬Right character) : left.Excludes right := by
  intro cursor
  cases foundLeft : left.run cursor with
  | none => exact .inl rfl
  | some leftResult =>
      cases foundRight : right.run cursor with
      | none => exact .inr rfl
      | some rightResult =>
          obtain ⟨character, head, opened⟩ := leftStarts _ _ foundLeft
          obtain ⟨other, otherHead, otherOpened⟩ := rightStarts _ _ foundRight
          rw [head, Option.some.injEq] at otherHead
          subst otherHead
          exact absurd otherOpened (different character opened)

/-- Of two parsers that exclude each other either may come first. -/
theorem Reads.or {other : Parser α} {Other : List Char → α → List Char → Prop}
    (reads : parser.Reads Passes) (readsOther : other.Reads Other)
    (excludes : parser.Excludes other) :
    (parser <|> other).Reads fun passed value rest =>
      Passes passed value rest ∨ Other passed value rest := by
  intro start value rest
  have either : (parser <|> other).run start = some (value, rest) ↔
      parser.run start = some (value, rest) ∨ other.run start = some (value, rest) := by
    rw [run_orElse]
    cases excludes start with
    | inl nothing => simp [nothing]
    | inr nothing => simp [nothing]
  rw [either, reads start value rest, readsOther start value rest, ← exists_or]
  exact exists_congr fun passed => and_or_left.symm

/-- A choice among parsers that exclude each other finds what one of them finds. -/
theorem run_choice_iff {parsers : List (Parser α)} (exclusive : parsers.Pairwise Excludes)
    {cursor : Cursor} {result : α × Cursor} :
    (choice parsers).run cursor = some result ↔
      ∃ parser ∈ parsers, parser.run cursor = some result := by
  induction parsers with
  | nil => simp
  | cons parser parsers ih =>
      have others := ih (List.pairwise_cons.mp exclusive).2
      have excluded := (List.pairwise_cons.mp exclusive).1
      rw [choice_cons, run_orElse, Option.or_eq_some_iff, others]
      simp only [List.mem_cons, exists_eq_or_imp]
      constructor
      · rintro (found | ⟨-, found⟩)
        · exact .inl found
        · exact .inr found
      · rintro (found | ⟨other, member, found⟩)
        · exact .inl found
        · refine .inr ⟨?_, other, member, found⟩
          cases excluded other member cursor with
          | inl nothing => exact nothing
          | inr nothing => simp [nothing] at found

/-- Parsers that exclude each other may be tried in any order. -/
theorem choice_eq_of_perm {parsers others : List (Parser α)}
    (exclusive : parsers.Pairwise Excludes) (perm : parsers.Perm others) :
    choice parsers = choice others := by
  have exclusiveOthers : others.Pairwise Excludes := perm.pairwise exclusive Excludes.symm
  ext cursor result
  rw [run_choice_iff exclusive, run_choice_iff exclusiveOthers]
  simp only [perm.mem_iff]

end Parser

end TextGrammar
