import TextGrammar.Cursor

/-!
# Later places in a text

A place lies further on in a text if what remains there is an end of what remained before.  What was
passed on the way is then told by the two sizes: it is as long as they differ, no character is cut
in two, and with what remains it makes up the text.
-/

namespace TextGrammar.Cursor

variable {start middle later : Cursor}

theorem size_le_of_suffix (further : later.remaining <:+ start.remaining) :
    later.size ≤ start.size := by
  obtain ⟨passed, split⟩ := further
  rw [later.size_eq, start.size_eq, ← split, byteSize_append]
  exact Nat.le_add_left _ _

/-- What was passed, with what remains, is the text. -/
theorem consumedSince_append_text (further : later.remaining <:+ start.remaining) :
    later.consumedSince start ++ later.text = start.text := by
  obtain ⟨passed, split⟩ := further
  have between := consumedSince_append passed later.remaining
  rw [split, ofList_remaining, ofList_remaining] at between
  rw [between, text, text, ← String.ofList_append, split]

theorem size_eq_utf8ByteSize_text (cursor : Cursor) : cursor.size = cursor.text.utf8ByteSize := by
  rw [text, byteSize_ofList, cursor.size_eq]

/-- What was passed is as long as the sizes differ. -/
theorem utf8ByteSize_consumedSince (further : later.remaining <:+ start.remaining) :
    (later.consumedSince start).utf8ByteSize = start.size - later.size := by
  have whole := congrArg String.utf8ByteSize (consumedSince_append_text further)
  rw [String.utf8ByteSize_append, ← size_eq_utf8ByteSize_text, ← size_eq_utf8ByteSize_text] at whole
  omega

/-- The difference of the sizes is a position between two characters of the text. -/
theorem isValid_size_sub (further : later.remaining <:+ start.remaining) :
    String.Pos.Raw.IsValid start.text ⟨start.size - later.size⟩ := by
  rw [String.Pos.Raw.isValid_iff_exists_append]
  refine ⟨later.consumedSince start, later.text, (consumedSince_append_text further).symm, ?_⟩
  rw [← utf8ByteSize_consumedSince further]
  rfl

/-- What was passed in two stages is what was passed in the first and then in the second. -/
theorem consumedSince_trans (further : middle.remaining <:+ start.remaining)
    (furtherOn : later.remaining <:+ middle.remaining) :
    later.consumedSince start = middle.consumedSince start ++ later.consumedSince middle := by
  have whole := consumedSince_append_text (furtherOn.trans further)
  rw [← consumedSince_append_text further, ← consumedSince_append_text furtherOn,
    ← String.append_assoc] at whole
  exact (String.append_left_inj later.text).mp whole

end TextGrammar.Cursor
