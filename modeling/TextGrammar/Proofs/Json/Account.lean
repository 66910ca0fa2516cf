import TextGrammar.Proofs.Cursor
import TextGrammar.Proofs.Json.Locality

/-!
# What is reported of a text

A reader that is given a text returns a result and reports events.  The two tell the same: from
either it can be seen which of three things has happened, and the numbers that come with the events
are those of the text.  Where something stands behind a value, the two sizes that are reported cut
the text between two characters, in front of something that is no blank, and what is cut off at the
front is a document by itself.
-/

namespace TextGrammar.Json

/-- The three things that may be told of a text: a result, and the events behind the start. -/
inductive Account (reader : Reader) :
    String → Except ParseError Value → List Event → Prop where
  /-- The text is a document, and nothing is reported. -/
  | document {text : String} {value : Value} : reader.parseValue text = some (value, "") →
      Account reader text (.ok value) []
  /-- No value stands at the start of the text. -/
  | noValue {text : String} : reader.parseValue text = none →
      Account reader text (.error .noValue) [.noValue text.utf8ByteSize]
  /-- The text is a document with something behind it. -/
  | trailingInput {front back : String} {value : Value} : front ≠ "" → back ≠ "" →
      reader.parseDocument front = .ok value → ClearOf reader.options.isBlank back.toList →
      Account reader (front ++ back) (.error .trailingInput)
        [.trailingInput front.utf8ByteSize back.utf8ByteSize]

/-- Two sizes that cut a text between two characters: into a document, and something behind it that
begins with no blank. -/
structure CutsBehindDocument (reader : Reader) (text : String) (consumed remaining : Nat) :
    Prop where
  consumed_pos : 1 ≤ consumed
  remaining_pos : 1 ≤ remaining
  /-- The sizes make up that of the text. -/
  add_eq : consumed + remaining = text.utf8ByteSize
  /-- The first size is a position between two characters. -/
  between : String.Pos.Raw.IsValid text ⟨consumed⟩
  /-- In front of that position is a document, and behind it no blank. -/
  parts : ∃ front back, text = front ++ back ∧ front.utf8ByteSize = consumed ∧
    (∃ value, reader.parseDocument front = .ok value) ∧ ClearOf reader.options.isBlank back.toList

namespace Reader

/-- The start is reported first, and the rest is one of the three accounts. -/
theorem exists_account (reader : Reader) (text : String) :
    ∃ further, (reader.reportDocument text).events = .started text.utf8ByteSize :: further ∧
      Account reader text (reader.parseDocument text) further := by
  rw [parseDocument, reportDocument_eq]
  cases found : reader.parseValue text with
  | none => exact ⟨_, rfl, .noValue found⟩
  | some result =>
      cases result with
      | mk value rest =>
          by_cases ended : rest = ""
          · subst ended
            exact ⟨_, rfl, .document found⟩
          · obtain ⟨front, split, filled, document, clear⟩ := reader.exists_document_append found
            have size : text.utf8ByteSize - rest.utf8ByteSize = front.utf8ByteSize := by
              rw [split, String.utf8ByteSize_append, Nat.add_sub_cancel]
            simp only [if_neg ended, size]
            refine ⟨_, rfl, ?_⟩
            rw [split]
            exact .trailingInput filled ended document clear

end Reader

namespace Account

variable {reader : Reader} {text : String} {result : Except ParseError Value}
variable {further : List Event}

/-- All events behind the start are at the level of debugging. -/
theorem map_level (account : Account reader text result further) :
    further.map Event.level = further.map fun _ => .debug := by
  cases account <;> rfl

theorem eq_nil_iff (account : Account reader text result further) :
    further = [] ↔ ∃ value, result = .ok value := by
  cases account <;> simp

theorem eq_noValue_iff (account : Account reader text result further) :
    further = [.noValue text.utf8ByteSize] ↔ result = .error .noValue := by
  cases account <;> simp

theorem eq_trailingInput_iff (account : Account reader text result further) :
    (∃ consumed remaining, further = [.trailingInput consumed remaining]) ↔
      result = .error .trailingInput := by
  cases account <;> simp

/-- The sizes that are reported cut the text behind a document. -/
theorem cuts (account : Account reader text result further) {consumed remaining : Nat}
    (reported : .trailingInput consumed remaining ∈ further) :
    CutsBehindDocument reader text consumed remaining := by
  cases account with
  | document found => exact absurd reported List.not_mem_nil
  | noValue nothing => exact absurd (List.mem_singleton.mp reported) nofun
  | @trailingInput front back value filled rest document clear =>
      cases List.mem_singleton.mp reported
      exact
        { consumed_pos := utf8ByteSize_pos filled
          remaining_pos := utf8ByteSize_pos rest
          add_eq := (String.utf8ByteSize_append ..).symm
          between := String.Pos.Raw.isValid_iff_exists_append.mpr ⟨front, back, rfl, rfl⟩
          parts := ⟨front, back, rfl, rfl, ⟨value, document⟩, clear⟩ }

end Account

namespace Reader

/-- The start of reading is reported first, with the size of the text.  Nothing else is reported if
and only if the text is a document; that no value was found is reported, with the same size, if and
only if that is the error; and that something stands behind a value if and only if that is the
error.  The sizes that are then reported cut the text behind a document. -/
theorem reportDocument_tells (reader : Reader) (text : String) :
    ∃ further, (reader.reportDocument text).events = .started text.utf8ByteSize :: further ∧
      (reader.reportDocument text).events.map Event.level =
        .trace :: further.map (fun _ => .debug) ∧
      (further = [] ↔ ∃ value, reader.parseDocument text = .ok value) ∧
      (further = [.noValue text.utf8ByteSize] ↔ reader.parseDocument text = .error .noValue) ∧
      ((∃ consumed remaining, further = [.trailingInput consumed remaining]) ↔
        reader.parseDocument text = .error .trailingInput) ∧
      ∀ consumed remaining, .trailingInput consumed remaining ∈ further →
        CutsBehindDocument reader text consumed remaining := by
  obtain ⟨further, events, account⟩ := reader.exists_account text
  refine ⟨further, events, ?_, account.eq_nil_iff, account.eq_noValue_iff,
    account.eq_trailingInput_iff, fun _ _ => account.cuts⟩
  rw [events, List.map_cons, account.map_level]
  rfl

/-- A string with a letter of two bytes, a blank, and something else behind it. -/
theorem reportDocument_tells_trailing :
    Reader.parseDocument {} "\"é\" x" = .error .trailingInput ∧
      ∃ consumed remaining, (Reader.reportDocument {} "\"é\" x").events =
          [.started 6, .trailingInput consumed remaining] ∧
        CutsBehindDocument {} "\"é\" x" consumed remaining := by
  have quotation : Quotation .json "\"é\"".toList "é" :=
    .intro (.cons (.plain (by decide) (by decide) (by decide)) .nil)
  have found : Reader.parseValue {} "\"é\" x" = some (.string "é", "x") :=
    (Reader.parseValue_eq_some_iff {}).mpr
      ⟨"\"é\" ".toList, rfl, [], "\"é\"".toList, [' '], rfl, blanks_nil,
        ⟨.string quotation, nofun⟩, by simp [Blanks, Options.isBlank], clearOf_cons.mpr rfl⟩
  have refused : Reader.parseDocument {} "\"é\" x" = .error .trailingInput := by
    rw [parseDocument_eq, found]
    rfl
  obtain ⟨further, events, -, -, -, trailing, cuts⟩ := reportDocument_tells {} "\"é\" x"
  obtain ⟨consumed, remaining, rfl⟩ := trailing.mpr refused
  exact ⟨refused, consumed, remaining, events, cuts consumed remaining (List.mem_singleton.mpr rfl)⟩

end Reader

end TextGrammar.Json
