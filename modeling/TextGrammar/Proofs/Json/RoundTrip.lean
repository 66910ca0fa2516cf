import TextGrammar.Proofs.Json.Exactness
import TextGrammar.Proofs.Json.Members
import TextGrammar.Proofs.Json.Written

/-!
# Reading what was written

With escapes, the text of a value is read as that value exactly if all its numbers are finite and it
is no deeper than the options allow.  Otherwise nothing is read, however deep in the value the
obstacle lies: an element that cannot be read makes every container around it fail, and no part of
the text is taken for a value.
-/

namespace TextGrammar.Json

open TextGrammar.Parser

variable {options : Options} {depth : Nat}

/-- Whether a value has finite numbers only and at most the given depth. -/
def Value.fits (depth : Nat) (value : Value) : Bool :=
  value.numbersFinite && decide (value.depth ≤ depth)

namespace Value

theorem fits_iff {value : Value} :
    value.fits depth = true ↔ value.numbersFinite = true ∧ value.depth ≤ depth := by
  simp [fits]

theorem fits_array (items : List Value) :
    (array items).fits (depth + 1) = items.all (fits depth) := by
  rw [Bool.eq_iff_iff, fits_iff, numbersFinite_array_iff, depth_array_le_iff, List.all_eq_true]
  simp only [fits_iff, forall_and]

theorem fits_object (members : Members Value) :
    (object members).fits (depth + 1) = members.entries.all fun entry => entry.2.fits depth := by
  rw [Bool.eq_iff_iff, fits_iff, numbersFinite_object_iff, depth_object_le_iff, List.all_eq_true]
  simp only [fits_iff, forall_and]

/-- No container fits where no bracket may be opened. -/
theorem fits_zero_eq_false {value : Value} (container : 0 < value.depth) :
    value.fits 0 = false := by
  rw [Bool.eq_false_iff, ne_eq, fits_iff]
  omega

end Value

/-- Items that are each kept if they pass a test are all kept if all pass it. -/
theorem mapM_guard {α : Type} (test : α → Bool) (items : List α) :
    items.mapM (Option.guard test) = Option.guard (·.all test) items := by
  induction items with
  | nil => rfl
  | cons item items ih =>
      rw [List.mapM_cons, ih]
      cases passed : test item <;> cases others : items.all test <;>
        simp [Option.guard, passed, others]

/-! ## Numbers that are not finite -/

theorem run_digits_of_clearOf {text : List Char} (clear : ClearOf Char.isDigit text) :
    digits.run (.ofList text) = none := by
  rw [digits, run_many1, run_satisfy_of_clearOf clear]

/-- Behind a minus a number needs a digit. -/
theorem run_number_minus {text : List Char} (clear : ClearOf Char.isDigit text) :
    number.run (.ofList ('-' :: text)) = none := by
  simp [number, numeral_eq, run_digits_of_clearOf clear]

/-- The words for numbers that are not finite are no values. -/
theorem run_value_of_not_isFinite {number : Binary64} (infinite : number.isFinite = false)
    {behind : List Char} (clear : ClearOf options.isBlank behind) :
    (value options depth).run (.ofList (number.chars .plain ++ behind)) = none := by
  have letter {first : Char} (black : Text.isWhiteSpace first = false)
      (unannounced : announces first = none) (text : List Char) :
      (value options depth).run (.ofList (first :: text)) = none :=
    run_value_of_not_announced (not_isBlank_of_not_isWhiteSpace black options) unannounced text
  cases number with
  | finite negative rank => exact absurd infinite (by simp [Binary64.isFinite])
  | nan => exact letter (by decide) rfl _
  | infinity negative =>
      cases negative with
      | false => exact letter (by decide) rfl _
      | true =>
          have noDigit : ClearOf Char.isDigit ('i' :: 'n' :: 'f' :: behind) :=
            clearOf_cons.mpr rfl
          have refused : (Value.number <$> Json.number).run
              (.ofList ('-' :: 'i' :: 'n' :: 'f' :: behind)) =
                (none : Option Value).map fun value => (value, .ofList behind) := by
            rw [run_functor_map, run_number_minus noDigit]
            rfl
          exact run_value_of_announces reads_numberValue rfl refused clear

/-! ## Values -/

/-- What the language contains is found in front of any delimiter. -/
theorem Element.gives {text : List Char} {value : Value}
    (element : Element options depth text value) :
    (Json.value options depth).Gives Delimited text (some value) :=
  (readsParts_value options depth).gives text value element

theorem gives_number (number : Binary64) :
    (Json.value options depth).Gives Delimited (Value.number number).chars
      (Option.guard (Value.fits depth) (.number number)) := by
  have fits : (Value.number number).fits depth = number.isFinite := by
    simp [Value.fits, Value.depth]
  rw [Option.guard, fits]
  cases finite : number.isFinite with
  | true =>
      obtain ⟨decimal, numeral, same⟩ := Binary64.exists_numeral_chars finite
      have bare : Bare options depth (number.chars .plain) (.number number) :=
        bare_number_iff.mpr ⟨decimal, numeral, same, finite⟩
      exact bare.element.gives
  | false =>
      intro behind delimited
      exact run_value_of_not_isFinite finite (delimited.clearOf_isBlank options)

/-- An entry is found if its value is. -/
theorem gives_entryChars (escapes : options.escapes = .json) {entry : String × Value}
    {result : Option Value}
    (gives : (Json.value options depth).Gives Delimited entry.2.chars result) :
    (member options (Json.value options depth)).Gives Delimited (Value.entryChars entry)
      (result.map fun value => (entry.1, value)) := by
  intro behind delimited
  have quotation : Quotation options.escapes (quoted entry.1) entry.1 := by
    rw [escapes]
    exact quotation_quoted entry.1
  have key : (amidBlanks options (string options.escapes) <* char ':').run
      (.ofList ((quoted entry.1 ++ [':']) ++ (entry.2.chars ++ behind))) =
        some (entry.1, .ofList (entry.2.chars ++ behind)) :=
    (reads_key options).run_append
      ⟨[], quoted entry.1, [], rfl, blanks_nil, quotation, blanks_nil⟩
  have value := gives behind delimited
  simp only [List.append_assoc, List.singleton_append] at key
  rw [member, run_zipWith, Value.entryChars, List.append_assoc, List.cons_append, key,
    Option.bind_some]
  simp only [value]
  cases result <;> rfl

/-- The text of a value begins with neither a blank nor a closing bracket. -/
theorem opens_chars {closing : Char} (delimiter : delimits closing = true) (value : Value) :
    ∃ first rest, value.chars = first :: rest ∧ options.isBlank first = false ∧
      first ≠ closing := by
  obtain ⟨first, rest, split, black, noDelimiter⟩ := value.exists_cons_chars
  have different : closing ≠ first := ne_of_accepts delimiter noDelimiter
  exact ⟨first, rest, split, not_isBlank_of_not_isWhiteSpace black options, different.symm⟩

/-- An array is found if all its items are. -/
theorem gives_array {items : List Value}
    (given : ∀ item ∈ items, (Json.value options depth).Gives Delimited item.chars
      (Option.guard (Value.fits depth) item)) :
    (Json.value options (depth + 1)).Gives Delimited (Value.array items).chars
      (Option.guard (Value.fits (depth + 1)) (.array items)) := by
  intro behind delimited
  have bracket : delimits ']' = true := rfl
  have separable := (readsParts_value options depth).toSeparable
  have found : (array options (Json.value options depth)).run
      (.ofList ('[' :: ([','].intercalate (items.map Value.chars) ++ ']' :: behind))) =
        (Option.guard (Value.fits (depth + 1)) (.array items)).map
          fun value => (value, .ofList behind) := by
    rw [array, run_functor_map, run_bracketed_marked separable bracket (by decide) given
      (fun _ item _ => opens_chars bracket item) behind, mapM_guard, Option.guard, Option.guard,
      Value.fits_array]
    cases items.all (Value.fits depth) <;> rfl
  rw [Value.chars_array, List.cons_append, List.append_assoc, List.singleton_append]
  exact run_value_of_announces (reads_array (readsParts_value options depth)) rfl found
    (delimited.clearOf_isBlank options)

/-- An object is found if the values of all its members are. -/
theorem gives_object (escapes : options.escapes = .json) {members : Members Value}
    (distinct : members.keys.Nodup)
    (given : ∀ entry ∈ members.entries, (Json.value options depth).Gives Delimited entry.2.chars
      (Option.guard (Value.fits depth) entry.2)) :
    (Json.value options (depth + 1)).Gives Delimited (Value.object members).chars
      (Option.guard (Value.fits (depth + 1)) (.object members)) := by
  intro behind delimited
  have givenEntries : ∀ entry ∈ members.entries, (member options (Json.value options depth)).Gives
      Delimited (Value.entryChars entry)
      (Option.guard (fun entry => entry.2.fits depth) entry) := by
    intro entry isMember
    have gives := gives_entryChars escapes (given entry isMember)
    rw [Option.guard] at gives ⊢
    cases fits : entry.2.fits depth with
    | true => simpa [fits] using gives
    | false => simpa [fits] using gives
  have opens (entry : String × Value) : ∃ first rest, Value.entryChars entry = first :: rest ∧
      options.isBlank first = false ∧ first ≠ '\x7d' :=
    ⟨'"', _, rfl, not_isBlank_of_not_isWhiteSpace (by decide) options, by decide⟩
  have bracket : delimits '\x7d' = true := rfl
  have separable := (readsParts_memberValue options depth).toSeparable
  have found : (object options (Json.value options depth)).run
      (.ofList ('\x7b' ::
        ([','].intercalate (members.entries.map Value.entryChars) ++ '\x7d' :: behind))) =
        (Option.guard (Value.fits (depth + 1)) (.object members)).map
          fun value => (value, .ofList behind) := by
    rw [object, run_functor_map, run_bracketed_marked separable bracket (by decide) givenEntries
      (fun _ entry _ => opens entry) behind, mapM_guard, Option.guard, Option.guard,
      Value.fits_object]
    cases members.entries.all fun entry => entry.2.fits depth with
    | true => simp [Members.ofList_of_nodup distinct]
    | false => rfl
  rw [Value.chars_object, List.cons_append, List.append_assoc, List.singleton_append]
  exact run_value_of_announces (reads_object (readsParts_memberValue options depth)) rfl found
    (delimited.clearOf_isBlank options)

/-- Where no bracket may be opened the text of a container gives nothing. -/
theorem gives_zero {value : Value} {first : Char} {kind : Kind}
    (announced : announces first = some kind) (kindContainer : kind ∉ scalarKinds)
    (container : 0 < value.depth) (text : List Char) :
    (Json.value options 0).Gives Delimited (first :: text)
      (Option.guard (Value.fits 0) value) := by
  intro behind _
  rw [Option.guard, Value.fits_zero_eq_false container]
  exact run_value_zero_of_announces announced kindContainer _

/-- The text of a value gives the value if it fits, and nothing if it does not. -/
theorem gives_chars (escapes : options.escapes = .json) (depth : Nat) (value : Value)
    (distinct : value.keysDistinct = true) :
    (Json.value options depth).Gives Delimited value.chars
      (Option.guard (Value.fits depth) value) := by
  induction value using Value.induction generalizing depth with
  | null => exact Bare.null.element.gives
  | bool truth =>
      cases truth with
      | true => exact Bare.truth.element.gives
      | false => exact Bare.falsehood.element.gives
  | number number => exact gives_number number
  | string text =>
      have quotation : Quotation options.escapes (quoted text) text := by
        rw [escapes]
        exact quotation_quoted text
      exact (Bare.string quotation).element.gives
  | array items ih =>
      have distinctItems := Value.keysDistinct_array_iff.mp distinct
      cases depth with
      | zero =>
          rw [Value.chars_array]
          exact gives_zero rfl (by decide) (Value.depth_array_pos items) _
      | succ depth =>
          exact gives_array fun item member => ih item member depth (distinctItems item member)
  | object members ih =>
      obtain ⟨distinctKeys, distinctParts⟩ := Value.keysDistinct_object_iff.mp distinct
      cases depth with
      | zero =>
          rw [Value.chars_object]
          exact gives_zero rfl (by decide) (Value.depth_object_pos members) _
      | succ depth =>
          exact gives_object escapes distinctKeys fun entry member =>
            ih entry member depth (distinctParts entry member)

namespace Reader

/-- What is taken off the front of a value's text is the value, with nothing left, or nothing. -/
theorem parseValue_render (reader : Reader) (escapes : reader.options.escapes = .json)
    {value : Value} (distinct : value.keysDistinct = true) :
    reader.parseValue value.render =
      (Option.guard (Value.fits reader.options.maxDepth) value).map fun value => (value, "") := by
  have run := gives_chars escapes reader.options.maxDepth value distinct [] delimited_nil
  rw [List.append_nil] at run
  rw [parseValue_eq, Reader.value, Parser.parse, Cursor.ofText_eq_ofList, Value.toList_render, run,
    Option.map_map]
  rfl

/-- The text of a value whose keys are distinct is a document that means it, if its numbers are
finite and it is not too deep.  Otherwise no value stands at the start of the text. -/
theorem parseDocument_render (reader : Reader) (escapes : reader.options.escapes = .json)
    (value : Value) (distinct : value.keysDistinct = true) :
    reader.parseDocument value.render =
      if value.numbersFinite = true ∧ value.depth ≤ reader.options.maxDepth then .ok value
      else .error .noValue := by
  rw [parseDocument_eq, parseValue_render reader escapes distinct, Option.guard]
  simp only [Value.fits_iff]
  by_cases fits : value.numbersFinite = true ∧ value.depth ≤ reader.options.maxDepth
  · simp [fits]
  · rw [if_neg fits, if_neg fits]
    rfl

/-- Two brackets may be opened around a negative zero, and it is read with its sign. -/
theorem parseDocument_render_negativeZero :
    Reader.parseDocument ⟨{ maxDepth := 2 }⟩
        (Value.array [.object ⟨[("a", .number (.zero true))]⟩]).render =
      .ok (.array [.object ⟨[("a", .number (.zero true))]⟩]) :=
  (parseDocument_render ⟨{ maxDepth := 2 }⟩ rfl _ (by decide)).trans (if_pos (by decide))

end Reader

end TextGrammar.Json
