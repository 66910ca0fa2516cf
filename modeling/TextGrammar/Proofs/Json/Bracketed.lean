import TextGrammar.Proofs.Json.Blanks
import TextGrammar.Proofs.Parser.Separation

/-!
# Items inside brackets

Arrays and objects are items with commas between them inside two brackets.  All that is asked of an
item is that blanks in front of it make no difference, that it begins with no delimiter, and that it
is found in front of any delimiter.  An item that cannot be read makes the whole container fail: the
list ends in front of it, where the closing bracket is missing.
-/

namespace TextGrammar.Json

open TextGrammar.Parser

/-- Whether a character ends the item in front of it. -/
def delimits (character : Char) : Bool :=
  character == ',' || character == ']' || character == '\x7d'

/-- Nothing follows, or a delimiter does. -/
def Delimited (text : List Char) : Prop :=
  ClearOf (fun character => !delimits character) text

@[simp] theorem delimited_nil : Delimited [] :=
  clearOf_nil

@[simp] theorem delimited_cons {character : Char} {text : List Char} :
    Delimited (character :: text) ↔ delimits character = true := by
  simp [Delimited]

theorem not_isBlank_of_delimits {character : Char} (delimiter : delimits character = true)
    (options : Options) : options.isBlank character = false := by
  apply not_isBlank_of_not_isWhiteSpace
  simp only [delimits, Bool.or_eq_true, beq_iff_eq] at delimiter
  rcases delimiter with (rfl | rfl) | rfl <;> decide

/-- Behind a delimiter in front there are no blanks in front. -/
theorem Delimited.clearOf_isBlank {text : List Char} (delimited : Delimited text)
    (options : Options) : ClearOf options.isBlank text := by
  cases text with
  | nil => exact clearOf_nil
  | cons character text =>
      exact clearOf_cons.mpr (not_isBlank_of_delimits (delimited_cons.mp delimited) options)

/-- Two brackets with blanks between them, or with parts between which there are commas. -/
inductive Bracketed {α : Type} (options : Options) (opening closing : Char)
    (Part : List Char → α → Prop) : List Char → List α → Prop where
  | empty {blanks : List Char} : Blanks options blanks →
      Bracketed options opening closing Part (opening :: (blanks ++ [closing])) []
  | filled {parts : List (List Char × α)} : parts ≠ [] → (∀ part ∈ parts, Part part.1 part.2) →
      Bracketed options opening closing Part
        (opening :: ([','].intercalate (parts.map Prod.fst) ++ [closing])) (parts.map Prod.snd)

/-- What an item must not do if it is to stand among delimiters and blanks. -/
structure Separable {α : Type} (options : Options) (item : Parser α) : Prop where
  /-- Blanks in front of the item make no difference. -/
  skips_blanks : ∀ text,
    item.run (.ofList (text.dropWhile options.isBlank)) = item.run (.ofList text)
  /-- No item begins with a delimiter. -/
  refuses : ∀ character text, delimits character = true →
    item.run (.ofList (character :: text)) = none

/-- What an item must do if the parts of a container are to be those of a language. -/
structure ReadsParts {α : Type} (options : Options) (item : Parser α)
    (Part : List Char → α → Prop) : Prop extends Separable options item where
  /-- In front of a delimiter every part is found. -/
  gives : ∀ text value, Part text value → item.Gives Delimited text (some value)
  /-- Only parts are found, with all blanks behind them. -/
  sound : ∀ start value rest, item.run start = some (value, rest) →
    ∃ passed, start.remaining = passed ++ rest.remaining ∧ Part passed value ∧
      ClearOf options.isBlank rest.remaining

section Containers

variable {α : Type} {options : Options} {opening closing : Char} {item : Parser α}

/-- The bracket at the end of a container, with the blanks in front of it. -/
def closer (options : Options) (closing : Char) : Parser Char :=
  blanks options *> char closing

theorem reads_closer (delimiter : delimits closing = true) :
    (closer options closing).Reads fun passed character _ =>
      character = closing ∧ ∃ blanks, passed = blanks ++ [closing] ∧ Blanks options blanks := by
  refine (Reads.seqRight skips_blanks (reads_char closing)).congr fun passed character rest => ?_
  constructor
  · rintro ⟨blanks, _, rfl, ⟨blank, -⟩, rfl, rfl⟩
    exact ⟨rfl, blanks, rfl, blank⟩
  · rintro ⟨rfl, blanks, rfl, blank⟩
    refine ⟨blanks, [character], rfl, ⟨blank, ?_⟩, rfl, rfl⟩
    exact clearOf_cons.mpr (not_isBlank_of_delimits delimiter options)

/-- A bracket that comes first is the end of the container. -/
theorem run_closer_cons (delimiter : delimits closing = true) (text : List Char) :
    (closer options closing).run (.ofList (closing :: text)) = some (closing, .ofList text) :=
  (reads_closer delimiter).run_append ⟨rfl, [], rfl, blanks_nil⟩

/-- Where something else comes first the end of the container is missing. -/
theorem run_closer_of_ne {character : Char} (black : options.isBlank character = false)
    (different : character ≠ closing) (text : List Char) :
    (closer options closing).run (.ofList (character :: text)) = none := by
  simp [closer, run_blanks, black, different]

/-- Behind the opening bracket a container is an item list, which may be missing, and its end. -/
theorem run_bracketed (separable : Separable options item) (text : List Char) :
    (bracketed options opening closing item).run (.ofList (opening :: text)) =
      let (values, rest) := ((sepBy1 item (char ',')).run (.ofList text)).getD ([], .ofList text)
      ((closer options closing).run rest).map fun (_, behind) => (values, behind) := by
  have skipped : (sepBy1 item (char ',')).run (.ofList (text.dropWhile options.isBlank)) =
      (sepBy1 item (char ',')).run (.ofList text) := by
    rw [run_sepBy1, run_sepBy1, separable.skips_blanks]
  simp only [bracketed, closer, run_seqLeft, run_seqRight, run_char_cons, if_pos, run_blanks,
    run_orElse, run_pure, skipped, Option.bind_some]
  cases (sepBy1 item (char ',')).run (.ofList text) with
  | some result =>
      obtain ⟨values, rest⟩ := result
      simp only [Option.some_or, Option.bind_some, Option.getD_some]
      cases (blanks options).run rest with
      | none => rfl
      | some result => simp
  | none => simp [run_blanks, List.dropWhile_idempotent _ text]

/-- What is found in a container is its item list, or nothing where there is no list, and only
blanks stand between that and the closing bracket. -/
theorem run_bracketed_eq_some_iff (separable : Separable options item)
    (delimiter : delimits closing = true) {text : List Char} {values : List α} {rest : Cursor} :
    (bracketed options opening closing item).run (.ofList (opening :: text)) =
        some (values, rest) ↔
      ∃ middle, (∃ blanks, middle.remaining = blanks ++ closing :: rest.remaining ∧
          Blanks options blanks) ∧
        ((sepBy1 item (char ',')).run (.ofList text) = some (values, middle) ∨
          ((sepBy1 item (char ',')).run (.ofList text) = none ∧ values = [] ∧
            middle = .ofList text)) := by
  have closes (middle : Cursor) :
      (∃ character, (closer options closing).run middle = some (character, rest)) ↔
        ∃ blanks, middle.remaining = blanks ++ closing :: rest.remaining ∧
          Blanks options blanks := by
    constructor
    · rintro ⟨_, closed⟩
      obtain ⟨_, split, -, blanks, rfl, blank⟩ := (reads_closer delimiter _ _ _).mp closed
      exact ⟨blanks, by simpa using split, blank⟩
    · rintro ⟨blanks, split, blank⟩
      refine ⟨closing, (reads_closer delimiter _ _ _).mpr ⟨_, ?_, rfl, blanks, rfl, blank⟩⟩
      simpa using split
  simp only [run_bracketed separable, Option.map_eq_some_iff, Prod.exists, Prod.mk.injEq, ← closes]
  cases (sepBy1 item (char ',')).run (.ofList text) with
  | none =>
      simp only [Option.getD_none, reduceCtorEq, true_and, false_or]
      constructor
      · rintro ⟨character, _, closed, rfl, rfl⟩
        exact ⟨.ofList text, ⟨character, closed⟩, rfl, rfl⟩
      · rintro ⟨_, ⟨character, closed⟩, rfl, rfl⟩
        exact ⟨character, rest, closed, rfl, rfl⟩
  | some result =>
      obtain ⟨items, middle⟩ := result
      simp only [Option.getD_some, reduceCtorEq, false_and, or_false, Option.some.injEq,
        Prod.mk.injEq]
      constructor
      · rintro ⟨character, _, closed, rfl, rfl⟩
        exact ⟨middle, ⟨character, closed⟩, rfl, rfl⟩
      · rintro ⟨_, ⟨character, closed⟩, rfl, rfl⟩
        exact ⟨character, rest, closed, rfl, rfl⟩

universe w

variable {ι : Type w} {text : ι → List Char} {result : ι → Option α}

/-- Of items with commas between them inside brackets all are found, or nothing is. -/
theorem run_bracketed_marked (separable : Separable options item)
    (delimiter : delimits closing = true) (noComma : closing ≠ ',') {entries : List ι}
    (gives : ∀ entry ∈ entries, item.Gives Delimited (text entry) (result entry))
    (opens : entries.mapM result = none → ∀ entry ∈ entries, ∃ first rest,
      text entry = first :: rest ∧ options.isBlank first = false ∧ first ≠ closing)
    (tail : List Char) :
    (bracketed options opening closing item).run
        (.ofList (opening :: ([','].intercalate (entries.map text) ++ closing :: tail))) =
      (entries.mapM result).map fun values => (values, .ofList tail) := by
  rw [run_bracketed separable]
  have ends : Delimited (closing :: tail) := delimited_cons.mpr delimiter
  have clear : ClearOf (· == ',') (closing :: tail) := clearOf_cons.mpr (by simp [noComma])
  by_cases filled : entries = []
  · subst filled
    have nothing : (sepBy1 item (char ',')).run (.ofList (closing :: tail)) = none := by
      rw [run_sepBy1, separable.refuses _ _ delimiter, Option.map_none]
    simp [nothing, run_closer_cons delimiter]
  · rcases run_sepBy1_marked (fun _ => delimited_cons.mpr rfl) ends clear filled gives with
      ⟨values, all, found⟩ | ⟨refused, stops⟩
    · simp [found, all, run_closer_cons delimiter]
    · rw [refused]
      cases found : (sepBy1 item (char ',')).run
          (.ofList ([','].intercalate (entries.map text) ++ closing :: tail)) with
      | some result =>
          -- The list ended in front of a comma, which is no closing bracket.
          obtain ⟨values, rest⟩ := result
          obtain ⟨behind, split⟩ := List.head?_eq_some_iff.mp (stops values rest found)
          rw [← Cursor.ofList_remaining rest, split]
          simp [run_closer_of_ne (not_isBlank_of_delimits rfl options) noComma.symm]
      | none =>
          -- Not even the first item was read, and it does not begin with the closing bracket.
          obtain ⟨entry, entries, rfl⟩ := List.exists_cons_of_ne_nil filled
          obtain ⟨first, rest, begins, black, different⟩ :=
            opens refused entry List.mem_cons_self
          rw [List.map_cons, intercalate_cons, begins]
          simp [run_closer_of_ne black different]

variable {Part : List Char → α → Prop}

/-- Where only blanks stand between the brackets there are no items. -/
theorem run_sepBy1_blanks (separable : Separable options item)
    (delimiter : delimits closing = true) {blanks : List Char} (blank : Blanks options blanks)
    (tail : List Char) :
    (sepBy1 item (char ',')).run (.ofList (blanks ++ closing :: tail)) = none := by
  have clear : ClearOf options.isBlank (closing :: tail) :=
    clearOf_cons.mpr (not_isBlank_of_delimits delimiter options)
  rw [run_sepBy1, ← separable.skips_blanks, dropWhile_append_clearOf blank clear,
    separable.refuses _ _ delimiter, Option.map_none]

/-- Whatever its items are, a container begins with its opening bracket. -/
theorem startsWith_bracketed (options : Options) (opening closing : Char) (item : Parser α) :
    (bracketed options opening closing item).StartsWith (· = opening) := by
  rintro cursor ⟨values, rest⟩ found
  simp only [bracketed, run_seqLeft_eq_some_iff, run_seqRight_eq_some_iff] at found
  obtain ⟨_, ⟨_, ⟨_, ⟨_, ⟨_, ⟨character, opened⟩, _⟩⟩, _⟩, _⟩, _⟩ := found
  obtain ⟨_, split, rfl, -⟩ := (reads_char opening _ _ _).mp opened
  exact ⟨opening, by simp [split], rfl⟩

/-- What is found in a container are the parts of its language. -/
theorem exists_bracketed_of_run (reads : ReadsParts options item Part)
    (delimiter : delimits closing = true) {start rest : Cursor} {values : List α}
    (found : (bracketed options opening closing item).run start = some (values, rest)) :
    ∃ passed, start.remaining = passed ++ rest.remaining ∧
      Bracketed options opening closing Part passed values := by
  obtain ⟨_, head, rfl⟩ := startsWith_bracketed _ _ _ _ _ _ found
  obtain ⟨text, opened⟩ := List.head?_eq_some_iff.mp head
  rw [← Cursor.ofList_remaining start, opened] at found
  rw [opened]
  obtain ⟨middle, ⟨blanks, closed, blank⟩, listed | ⟨-, rfl, rfl⟩⟩ :=
    (run_bracketed_eq_some_iff reads.toSeparable delimiter).mp found
  · obtain ⟨parts, filled, all, rfl, split, clear⟩ := exists_parts_of_run_sepBy1 reads.sound listed
    -- All blanks behind the last part belong to it.
    rw [closed] at split clear
    obtain rfl := blank.eq_nil clear
    refine ⟨_, ?_, .filled filled all⟩
    rw [Cursor.remaining_ofList] at split
    simp [split]
  · refine ⟨_, ?_, .empty blank⟩
    rw [Cursor.remaining_ofList] at closed
    simp [closed]

/-- The parts of the language of a container are found, whatever stands behind it. -/
theorem Bracketed.run (reads : ReadsParts options item Part) (delimiter : delimits closing = true)
    (noComma : closing ≠ ',') {passed : List Char} {values : List α}
    (bracketed : Bracketed options opening closing Part passed values) (behind : List Char) :
    (Json.bracketed options opening closing item).run (.ofList (passed ++ behind)) =
      some (values, .ofList behind) := by
  cases bracketed with
  | @empty blanks blank =>
      have nothing := run_sepBy1_blanks reads.toSeparable delimiter blank behind
      rw [List.cons_append, List.append_assoc, List.singleton_append]
      exact (run_bracketed_eq_some_iff reads.toSeparable delimiter).mpr
        ⟨_, ⟨blanks, rfl, blank⟩, .inr ⟨nothing, rfl, rfl⟩⟩
  | @filled parts filled all =>
      have given : ∀ part ∈ parts, item.Gives Delimited part.1 (some part.2) :=
        fun part member => reads.gives _ _ (all part member)
      have every : parts.mapM (fun part => some part.2) = some (parts.map Prod.snd) :=
        List.mapM_pure
      rw [List.cons_append, List.append_assoc, List.singleton_append,
        run_bracketed_marked reads.toSeparable delimiter noComma given (by simp [every]), every]
      rfl

/-- A container passes the parts of its language inside its brackets. -/
theorem reads_bracketed (reads : ReadsParts options item Part)
    (delimiter : delimits closing = true) (noComma : closing ≠ ',') :
    (bracketed options opening closing item).Reads fun passed values _ =>
      Bracketed options opening closing Part passed values := by
  intro start values rest
  constructor
  · exact exists_bracketed_of_run reads delimiter
  · rintro ⟨_, split, inside⟩
    rw [← Cursor.ofList_remaining start, split, inside.run reads delimiter noComma,
      Cursor.ofList_remaining]

end Containers

end TextGrammar.Json
