import TextGrammar.Proofs.Json.Exactness

/-!
# Reading is local

What is taken off the front of a text is a document by itself, and it is taken off the front of
every text that does not prolong it, with the same value.  Nothing further on has a say in it.
-/

namespace TextGrammar.Json

open TextGrammar.Decimal

variable {options : Options} {depth : Nat} {passed rest : List Char} {value : Value}

theorem Element.ne_nil (element : Element options depth passed value) : passed ≠ [] := by
  cases element with
  | intro _ bare _ =>
      obtain ⟨first, others, rfl, -⟩ := bare.exists_cons
      simp

theorem utf8ByteSize_pos {text : String} (filled : text ≠ "") : 0 < text.utf8ByteSize :=
  Nat.pos_of_ne_zero fun none => filled (String.utf8ByteSize_eq_zero_iff.mp none)

namespace Reader

/-- What a value has passed is a document by itself, and no blank stands behind it. -/
theorem exists_document_append (reader : Reader) {text rest : String} {value : Value}
    (found : reader.parseValue text = some (value, rest)) :
    ∃ front, text = front ++ rest ∧ front ≠ "" ∧ reader.parseDocument front = .ok value ∧
      ClearOf reader.options.isBlank rest.toList := by
  obtain ⟨passed, split, before⟩ := reader.parseValue_eq_some_iff.mp found
  refine ⟨String.ofList passed, ?_, ?_, ?_, before.clear⟩
  · apply String.toList_injective
    rw [split, String.toList_append, String.toList_ofList]
  · simpa using before.element.ne_nil
  · rw [parseDocument_eq_ok_iff_parseValue, parseValue_eq_some_empty_iff, String.toList_ofList]
    exact before.element

/-- What was read is read again, with the same value, in front of every text that begins with no
blank and does not prolong a number at the end; and by itself it is a document. -/
theorem parseValue_local (reader : Reader) {text rest : String} {value : Value}
    (found : reader.parseValue text = some (value, rest)) :
    ∃ consumed, text = consumed ++ rest ∧ consumed ≠ "" ∧
      ClearOf reader.options.isBlank rest.toList ∧
      (∀ other : String, ClearOf reader.options.isBlank other.toList →
        (∀ last, consumed.toList.getLast? = some last → last.isDigit = true →
          ClearOf prolongs other.toList) →
        reader.parseValue (consumed ++ other) = some (value, other)) ∧
      reader.parseDocument consumed = .ok value := by
  obtain ⟨passed, split, before⟩ := reader.parseValue_eq_some_iff.mp found
  have again {other : String} (clear : ClearOf reader.options.isBlank other.toList)
      (ends : ∀ last, passed.getLast? = some last → last.isDigit = true →
        ClearOf prolongs other.toList) :
      reader.parseValue (String.ofList passed ++ other) = some (value, other) :=
    reader.parseValue_eq_some_iff.mpr
      ⟨passed, by simp, before.element.before clear ends⟩
  refine ⟨String.ofList passed, ?_, ?_, ?_, ?_, ?_⟩
  · apply String.toList_injective
    simpa using split
  · simpa using before.element.ne_nil
  · exact before.clear
  · intro other clear ends
    rw [String.toList_ofList] at ends
    exact again clear ends
  · rw [parseDocument_eq_ok_iff_parseValue]
    have alone := @again "" (by simp) (by simp)
    simpa using alone

/-- An array with a blank behind it, in front of a letter and in front of a bracket. -/
theorem parseValue_local_in_front_of_bracket :
    ∃ consumed : String, "[true] x" = consumed ++ "x" ∧
      Reader.parseValue {} (consumed ++ "]") = some (.array [.bool true], "]") ∧
      Reader.parseDocument {} consumed = .ok (.array [.bool true]) := by
  have array : Bare {} 64 "[true]".toList (.array [.bool true]) :=
    bare_array_iff.mpr (.filled (List.cons_ne_nil ("true".toList, Value.bool true) [])
      (by simpa using Bare.truth.element))
  have found : Reader.parseValue {} "[true] x" = some (.array [.bool true], "x") :=
    (Reader.parseValue_eq_some_iff {}).mpr
      ⟨"[true] ".toList, rfl, [], "[true]".toList, [' '], rfl, blanks_nil, ⟨array, nofun⟩,
        by simp [Blanks, Options.isBlank], clearOf_cons.mpr rfl⟩
  obtain ⟨consumed, split, -, -, again, document⟩ := parseValue_local {} found
  have inFront := again "]" (clearOf_cons.mpr rfl) fun _ _ _ => clearOf_cons.mpr rfl
  exact ⟨consumed, split, inFront, document⟩

end Reader

end TextGrammar.Json
