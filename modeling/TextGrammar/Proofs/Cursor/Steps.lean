import TextGrammar.Proofs.Cursor

/-!
# Steps of a cursor

A cursor takes one character after another, and knows no place in the text but by what remains.  The
number of steps is nonetheless the number of characters that were passed, however many bytes each of
them has: what lies between two places is cut out by the difference of two sizes in bytes, and that
difference never falls inside a character.
-/

namespace TextGrammar.Cursor

variable {start middle later : Cursor} {count : Nat}

/-- The cursor behind `count` characters, if there are so many. -/
def advance? : Nat → Cursor → Option Cursor
  | 0, cursor => some cursor
  | count + 1, cursor => cursor.next?.bind fun (_, later) => advance? count later

/-! ## One step -/

/-- A step takes the bytes of its character off the size. -/
theorem size_add_of_next? {character : Char} (step : start.next? = some (character, later)) :
    later.size + character.utf8Size = start.size := by
  have split := next?_eq_some_iff.mp step
  rw [later.size_eq, start.size_eq, split, byteSize_cons, Nat.add_comm]

/-- The place behind the character at the cursor is no place inside a character. -/
theorem isValid_of_next? {character : Char} (step : start.next? = some (character, later)) :
    String.Pos.Raw.IsValid start.text ⟨character.utf8Size⟩ := by
  have further : later.remaining <:+ start.remaining :=
    ⟨[character], (next?_eq_some_iff.mp step).symm⟩
  have between := isValid_size_sub further
  rwa [← size_add_of_next? step, Nat.add_sub_cancel_left] at between

/-! ## Many steps -/

/-- As many steps can be taken as there are characters, and each drops one. -/
theorem advance?_eq (count : Nat) (start : Cursor) :
    start.advance? count =
      if count ≤ start.remaining.length then some (ofList (start.remaining.drop count))
      else none := by
  induction count generalizing start with
  | zero => simp [advance?]
  | succ count ih =>
      rw [← ofList_remaining start]
      cases start.remaining with
      | nil => rfl
      | cons character rest =>
          by_cases within : count ≤ rest.length <;> simp [advance?, ih, within]

theorem advance?_eq_some_iff :
    start.advance? count = some later ↔
      count ≤ start.remaining.length ∧ later.remaining = start.remaining.drop count := by
  rw [advance?_eq]
  split
  · next within =>
      rw [Option.some.injEq]
      constructor
      · intro same
        rw [← same]
        exact ⟨within, rfl⟩
      · intro dropped
        exact Cursor.ext dropped.2.symm
  · next beyond => simp [beyond]

theorem isSome_advance?_iff :
    (start.advance? count).isSome = true ↔ count ≤ start.remaining.length := by
  rw [advance?_eq]
  split
  · next within => simp [within]
  · next beyond => simp [beyond]

/-- Steps are taken one run after the other. -/
theorem advance?_add (first second : Nat) (start : Cursor) :
    start.advance? (first + second) = (start.advance? first).bind (advance? second) := by
  induction first generalizing start with
  | zero => rw [Nat.zero_add, advance?, Option.bind_some]
  | succ first ih =>
      rw [Nat.succ_add]
      cases step : start.next? with
      | none => simp [advance?, step]
      | some taken => simp [advance?, step, ih]

/-! ## What lies between two places -/

/-- The first bytes of a text up to a place are those of what was passed. -/
theorem toByteArray_consumedSince (further : later.remaining <:+ start.remaining) :
    (later.consumedSince start).toByteArray =
      start.text.toByteArray.extract 0 (start.size - later.size) := by
  rw [← consumedSince_append_text further, String.toByteArray_append,
    ByteArray.extract_append_eq_left (utf8ByteSize_consumedSince further).symm]

/-- From a place back to an earlier one nothing was passed. -/
theorem consumedSince_of_size_le (fewer : later.size ≤ start.size) :
    start.consumedSince later = "" := by
  rw [consumedSince, Nat.sub_eq_zero_of_le fewer, fitting_zero]
  rfl

/-- What is known of a cursor `count` steps further on. -/
structure Passes (count : Nat) (start later : Cursor) : Prop where
  /-- The characters of the steps have gone, and no others. -/
  dropped : start.remaining = start.remaining.take count ++ later.remaining
  /-- There were as many characters as steps. -/
  within : count ≤ start.remaining.length
  /-- What was passed are the characters that have gone. -/
  taken : (later.consumedSince start).toList = start.remaining.take count
  /-- What was passed, with what remains, is the text. -/
  rejoined : later.consumedSince start ++ later.text = start.text
  /-- The difference of the sizes is a position between two characters of the text. -/
  between : String.Pos.Raw.IsValid start.text ⟨start.size - later.size⟩
  /-- What was passed are the bytes in front of that position. -/
  bytes : (later.consumedSince start).toByteArray =
    start.text.toByteArray.extract 0 (start.size - later.size)
  /-- Backwards nothing was passed. -/
  backwards : start.consumedSince later = ""
  /-- Backwards the difference of the sizes is cut off at the beginning of the text. -/
  cutOff : later.size - start.size = 0
  /-- That is a position in the text, too. -/
  betweenBackwards : String.Pos.Raw.IsValid later.text ⟨later.size - start.size⟩

theorem passes_of_advance? (reached : start.advance? count = some later) :
    Passes count start later := by
  obtain ⟨within, dropped⟩ := advance?_eq_some_iff.mp reached
  have split : start.remaining = start.remaining.take count ++ later.remaining := by
    rw [dropped, List.take_append_drop]
  have further : later.remaining <:+ start.remaining := ⟨_, split.symm⟩
  have fewer := size_le_of_suffix further
  have cutOff : later.size - start.size = 0 := Nat.sub_eq_zero_of_le fewer
  have taken : (later.consumedSince start).toList = start.remaining.take count := by
    have whole := congrArg String.toList (consumedSince_append_text further)
    rw [String.toList_append, text, text, String.toList_ofList, String.toList_ofList] at whole
    exact List.append_cancel_right (whole.trans split)
  exact
    { dropped := split
      within := within
      taken := taken
      rejoined := consumedSince_append_text further
      between := isValid_size_sub further
      bytes := toByteArray_consumedSince further
      backwards := consumedSince_of_size_le fewer
      cutOff := cutOff
      betweenBackwards := by
        rw [cutOff]
        exact String.Pos.Raw.isValid_zero }

/-- Steps can be taken as long as there are characters, and a run of them passes as many characters
as it has steps.  What two runs have passed one after the other is what the first has passed and
then the second.  A step more makes the text shorter by the bytes of its character, and cuts it
between two characters. -/
theorem steps_exact {first second : Nat} (reached : start.advance? first = some middle)
    (reachedOn : middle.advance? second = some later) :
    (∀ count, (start.advance? count).isSome = true ↔ count ≤ start.remaining.length) ∧
      Passes first start middle ∧ Passes second middle later ∧
      Passes (first + second) start later ∧
      later.consumedSince start = middle.consumedSince start ++ later.consumedSince middle ∧
      ∀ character next, later.next? = some (character, next) →
        String.Pos.Raw.IsValid later.text ⟨character.utf8Size⟩ ∧
          next.size + character.utf8Size = later.size ∧ next.size < later.size := by
  have passes := passes_of_advance? reached
  have passesOn := passes_of_advance? reachedOn
  have together : start.advance? (first + second) = some later := by
    rw [advance?_add, reached, Option.bind_some, reachedOn]
  refine ⟨fun _ => isSome_advance?_iff, passes, passesOn, passes_of_advance? together, ?_, ?_⟩
  · exact consumedSince_trans ⟨_, passes.dropped.symm⟩ ⟨_, passesOn.dropped.symm⟩
  · intro character next step
    have size := size_add_of_next? step
    have positive := character.utf8Size_pos
    exact ⟨isValid_of_next? step, size, by omega⟩

/-- Characters of one, two, three and four bytes: two steps and another two, and one more. -/
theorem steps_exact_mixed :
    (ofText "€😀!").consumedSince (ofText "aé€😀!") = "aé" ∧
      (ofText "!").consumedSince (ofText "aé€😀!") = "aé" ++ "€😀" ∧
      (ofText "").size + '!'.utf8Size = (ofText "!").size := by
  have reached : (ofText "aé€😀!").advance? 2 = some (ofText "€😀!") := by decide
  have reachedOn : (ofText "€😀!").advance? 2 = some (ofText "!") := by decide
  obtain ⟨-, passes, passesOn, -, joined, step⟩ := steps_exact reached reachedOn
  have front : (ofText "€😀!").consumedSince (ofText "aé€😀!") = "aé" :=
    String.toList_injective (passes.taken.trans (by decide))
  have back : (ofText "!").consumedSince (ofText "€😀!") = "€😀" :=
    String.toList_injective (passesOn.taken.trans (by decide))
  have last : (ofText "!").next? = some ('!', ofText "") := by decide
  exact ⟨front, by rw [joined, front, back], (step _ _ last).2.1⟩

end TextGrammar.Cursor
