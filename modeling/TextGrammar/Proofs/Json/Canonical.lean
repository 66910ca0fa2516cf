import TextGrammar.Proofs.Json.RoundTrip

/-!
# What is read is fit to be written

Every value that is read has finite numbers only, distinct keys in every object, and no more depth
than the options allow.  Its text is therefore read as the same value, whatever the escape mode in
which it was read first.
-/

namespace TextGrammar.Json

variable {options : Options} {depth : Nat} {text : List Char} {value : Value}

/-- What the language contains fits, and has distinct keys.  A repeated key leaves a part out but
adds none. -/
theorem Bare.fits_and_keysDistinct (bare : Bare options depth text value) :
    value.fits depth = true ∧ value.keysDistinct = true := by
  -- Each container takes one bracket of the budget, on which the induction is.
  induction depth using Nat.strongRecOn generalizing text value with
  | ind depth ih =>
      cases bare with
      | null => exact ⟨rfl, rfl⟩
      | truth => exact ⟨rfl, rfl⟩
      | falsehood => exact ⟨rfl, rfl⟩
      | number numeral finite => exact ⟨by simp [Value.fits, Value.depth, finite], rfl⟩
      | string quotation => exact ⟨rfl, rfl⟩
      | emptyArray blank => exact ⟨Value.fits_array _, rfl⟩
      | emptyObject blank => exact ⟨Value.fits_object _, rfl⟩
      | @array depth parts filled all =>
          have holds : ∀ item ∈ parts.map Prod.snd,
              item.fits depth = true ∧ item.keysDistinct = true := by
            rw [List.forall_mem_map]
            intro part member
            obtain ⟨core, bare⟩ := (all part member).exists_bare
            exact ih depth (Nat.lt_succ_self depth) bare
          rw [Value.fits_array, List.all_eq_true, Value.keysDistinct_array_iff]
          exact ⟨fun item member => (holds item member).1, fun item member => (holds item member).2⟩
      | @object depth parts filled all =>
          have holds : ∀ entry ∈ parts.map Prod.snd,
              entry.2.fits depth = true ∧ entry.2.keysDistinct = true := by
            rw [List.forall_mem_map]
            intro part member
            obtain ⟨core, bare⟩ := (all part member).exists_bare
            exact ih depth (Nat.lt_succ_self depth) bare
          have kept : ∀ entry ∈ (Members.ofList (parts.map Prod.snd)).entries,
              entry.2.fits depth = true ∧ entry.2.keysDistinct = true :=
            fun entry member => holds entry (Members.mem_of_mem_entries_ofList member)
          rw [Value.fits_object, List.all_eq_true, Value.keysDistinct_object_iff]
          exact ⟨fun entry member => (kept entry member).1, Members.nodup_keys_ofList _,
            fun entry member => (kept entry member).2⟩

namespace Reader

/-- What is read has finite numbers, distinct keys and no more depth than is allowed, and its text
is, with escapes, a document that means it. -/
theorem parseValue_canonical (reader : Reader) {text rest : String} {value : Value}
    (found : reader.parseValue text = some (value, rest)) :
    value.numbersFinite = true ∧ value.keysDistinct = true ∧
      value.depth ≤ reader.options.maxDepth ∧
      ∀ unicodeBlanks, Reader.parseDocument
        ⟨{ reader.options with escapes := .json, unicodeBlanks }⟩ value.render =
          .ok value := by
  obtain ⟨passed, -, before⟩ := reader.parseValue_eq_some_iff.mp found
  obtain ⟨core, bare⟩ := before.element.exists_bare
  obtain ⟨fits, distinct⟩ := bare.fits_and_keysDistinct
  obtain ⟨finite, shallow⟩ := Value.fits_iff.mp fits
  refine ⟨finite, distinct, shallow, fun unicodeBlanks => ?_⟩
  rw [parseDocument_eq_ok_iff_parseValue, parseValue_render _ rfl distinct, Option.guard]
  simp [fits]

/-- A line feed that stands for itself in a string is written as an escape and read back. -/
theorem parseDocument_render_lineFeed :
    Reader.parseDocument {} (Value.string "\n").render = .ok (.string "\n") := by
  have quotation : Quotation .literal "\"\n\"".toList "\n" :=
    .intro (.cons (.literal (by decide)) .nil)
  have found : Reader.parseValue ⟨{ escapes := .literal }⟩ "\"\n\"" = some (.string "\n", "") :=
    (Reader.parseValue_eq_some_iff ⟨{ escapes := .literal }⟩).mpr
      ⟨"\"\n\"".toList, rfl, [], _, [], rfl, blanks_nil, ⟨.string quotation, nofun⟩, blanks_nil,
        clearOf_nil⟩
  exact (parseValue_canonical _ found).2.2.2 false

end Reader

end TextGrammar.Json
