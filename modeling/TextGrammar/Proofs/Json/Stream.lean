import TextGrammar.Proofs.Json.Locality
import TextGrammar.Proofs.Json.RoundTrip

/-!
# Values taken off a text one after another

Every value that is taken off passes some text, so the reader is through after as many values as the
text has characters at the most, and what the values have passed is the text up to where the reader
stopped.

Values that are written one after another are taken off in turn, with blanks or without between
them.  Only two numbers have to be kept apart, unless the second one begins with its sign.
-/

namespace TextGrammar.Json

variable {options : Options} {depth : Nat}

/-! ## One value after another -/

/-- The attempts to take a value off a text, off what that one left, and so on, up to the first that
finds none or leaves nothing. -/
inductive Iterates (reader : Reader) : String → List (Option (Value × String)) → Prop where
  | refused {text : String} : reader.parseValue text = none → Iterates reader text [none]
  | finished {text : String} {value : Value} : reader.parseValue text = some (value, "") →
      Iterates reader text [some (value, "")]
  | more {text rest : String} {value : Value} {attempts : List (Option (Value × String))} :
      reader.parseValue text = some (value, rest) → rest ≠ "" → Iterates reader rest attempts →
      Iterates reader text (some (value, rest) :: attempts)

/-- The texts that lie between one place and the next, from the start of `text` on.  A place is
given by the text that remains there. -/
def piecesBetween (text : String) : List String → List String
  | [] => []
  | rest :: rests =>
      (Cursor.ofText rest).consumedSince (Cursor.ofText text) :: piecesBetween rest rests

theorem consumedSince_ofText_append (piece rest : String) :
    (Cursor.ofText rest).consumedSince (Cursor.ofText (piece ++ rest)) = piece := by
  rw [Cursor.ofText_eq_ofList, Cursor.ofText_eq_ofList, String.toList_append,
    Cursor.consumedSince_append, String.ofList_toList]

namespace Reader

variable {reader : Reader} {text rest : String} {value : Value}

/-- A value that is taken off passes some text. -/
theorem exists_piece (found : reader.parseValue text = some (value, rest)) :
    ∃ piece, piece ≠ "" ∧ text = piece ++ rest := by
  obtain ⟨piece, split, filled, -⟩ := reader.exists_document_append found
  exact ⟨piece, filled, split⟩

theorem utf8ByteSize_rest_lt (found : reader.parseValue text = some (value, rest)) :
    rest.utf8ByteSize < text.utf8ByteSize := by
  obtain ⟨piece, filled, rfl⟩ := exists_piece found
  rw [String.utf8ByteSize_append]
  exact Nat.lt_add_of_pos_left (utf8ByteSize_pos filled)

theorem parseStream_of_none (nothing : reader.parseValue text = none) :
    reader.parseStream text = [none] := by
  rw [parseStream, nothing]

theorem parseStream_of_nil (found : reader.parseValue text = some (value, "")) :
    reader.parseStream text = [some (value, "")] := by
  rw [parseStream, found]
  simp

/-- What is left is always less than there was, so only the end of the text ends the stream behind a
value. -/
theorem parseStream_of_ne_nil (found : reader.parseValue text = some (value, rest))
    (filled : rest ≠ "") :
    reader.parseStream text = some (value, rest) :: reader.parseStream rest := by
  rw [parseStream, found]
  exact if_pos ⟨utf8ByteSize_rest_lt found, filled⟩

/-- The reader of streams makes one attempt after another. -/
theorem iterates_parseStream (reader : Reader) (text : String) :
    Iterates reader text (reader.parseStream text) := by
  -- Each value leaves less text, so the induction is on how much of it there is.
  induction size : text.utf8ByteSize using Nat.strongRecOn generalizing text with
  | ind size ih =>
      cases found : reader.parseValue text with
      | none =>
          rw [parseStream_of_none found]
          exact .refused found
      | some result =>
          obtain ⟨value, rest⟩ := result
          by_cases ended : rest = ""
          · subst ended
            rw [parseStream_of_nil found]
            exact .finished found
          · rw [parseStream_of_ne_nil found ended]
            have shrinks := utf8ByteSize_rest_lt found
            rw [size] at shrinks
            exact .more found ended (ih _ shrinks rest rfl)

end Reader

namespace Iterates

variable {reader : Reader} {text : String} {attempts : List (Option (Value × String))}

/-- No more values are found than there are characters. -/
theorem length_le (iterates : Iterates reader text attempts) :
    (attempts.filterMap id).length ≤ text.length := by
  have passes {text rest : String} {value : Value}
      (found : reader.parseValue text = some (value, rest)) : rest.length < text.length := by
    obtain ⟨piece, filled, rfl⟩ := Reader.exists_piece found
    have positive : piece.length ≠ 0 := fun none => filled (String.length_eq_zero_iff.mp none)
    rw [String.length_append]
    omega
  induction iterates with
  | refused _ => exact Nat.zero_le _
  | finished found => exact Nat.zero_lt_of_lt (passes found)
  | more found _ _ ih => exact Nat.lt_of_le_of_lt ih (passes found)

/-- What the values have passed, in order, and what was left in the end make up the text. -/
theorem join_piecesBetween (iterates : Iterates reader text attempts) :
    String.join (piecesBetween text ((attempts.filterMap id).map Prod.snd)) ++
      ((attempts.filterMap id).map Prod.snd).getLastD text = text := by
  have passes {text rest : String} {value : Value}
      (found : reader.parseValue text = some (value, rest)) :
      (Cursor.ofText rest).consumedSince (Cursor.ofText text) ++ rest = text := by
    obtain ⟨piece, -, rfl⟩ := Reader.exists_piece found
    rw [consumedSince_ofText_append]
  induction iterates with
  | refused _ => simp [piecesBetween]
  | finished found => simpa [piecesBetween] using passes found
  | @more text rest value attempts found _ _ ih =>
      simp only [List.filterMap_cons, id, List.map_cons, piecesBetween, String.join_cons,
        List.getLastD_cons, String.append_assoc]
      exact (congrArg (_ ++ ·) ih).trans (passes found)

end Iterates

/-! ## Values written one after another -/

/-- The texts of some values one after another, with blanks between them.  There may be none, except
between two numbers of which the second begins with a digit. -/
inductive InTurn (options : Options) : List Value → String → Prop where
  | last (value : Value) : InTurn options [value] value.render
  | more {value next : Value} {values : List Value} {blanks text : String} :
      Blanks options blanks.toList →
      (blanks = "" → value.kind = .number → next.kind = .number →
        ClearOf Char.isDigit next.render.toList) →
      InTurn options (next :: values) text →
      InTurn options (value :: next :: values) (value.render ++ (blanks ++ text))

/-- A value that can be read back: with finite numbers, distinct keys, and no more depth than is
allowed. -/
structure Readable (options : Options) (value : Value) : Prop where
  numbersFinite : value.numbersFinite = true
  keysDistinct : value.keysDistinct = true
  shallow : value.depth ≤ options.maxDepth

/-- Of what announces a value only digits prolong a number. -/
theorem not_prolongs_of_announces {character : Char} {kind : Kind}
    (announced : announces character = some kind) (noDigit : character.isDigit = false) :
    prolongs character = false := by
  rcases eq_of_announces announced with mark | digit
  · rcases mark with rfl | rfl | rfl | rfl | rfl | rfl | rfl <;> rfl
  · rw [digit] at noDigit
    exact Bool.noConfusion noDigit

namespace Readable

variable {value : Value}

theorem fits (readable : Readable options value) : value.fits options.maxDepth = true :=
  Value.fits_iff.mpr ⟨readable.numbersFinite, readable.shallow⟩

variable (escapes : options.escapes = .json)
include escapes

theorem parseValue_render (readable : Readable options value) :
    Reader.parseValue ⟨options⟩ value.render = some (value, "") := by
  rw [Reader.parseValue_render _ escapes readable.keysDistinct, Option.guard, if_pos readable.fits,
    Option.map_some]

theorem element (readable : Readable options value) :
    Element options options.maxDepth value.chars value := by
  obtain ⟨passed, split, before⟩ :=
    (Reader.parseValue_eq_some_iff ⟨options⟩).mp (readable.parseValue_render escapes)
  rw [Value.toList_render, String.toList_empty, List.append_nil] at split
  rw [split]
  exact before.element

/-- The text of a readable value begins with no blank, and announces what kind of value it is. -/
theorem exists_cons_chars (readable : Readable options value) :
    ∃ first rest, value.chars = first :: rest ∧ options.isBlank first = false ∧
      announces first = some value.kind := by
  obtain ⟨first, rest, split, black, -⟩ := value.exists_cons_chars
  have noBlank := not_isBlank_of_not_isWhiteSpace black options
  have before := (readable.element escapes).before_of_delimited delimited_nil
  have begins : first :: rest = value.chars ++ [] := by rw [split, List.append_nil]
  exact ⟨first, rest, split, noBlank, (before.of_black begins noBlank).1⟩

end Readable

namespace InTurn

variable {values : List Value} {text : String}

/-- The text of the first value comes first. -/
theorem exists_append {value : Value} (inTurn : InTurn options (value :: values) text) :
    ∃ behind, text.toList = value.chars ++ behind := by
  cases inTurn with
  | last => exact ⟨[], by simp⟩
  | more => exact ⟨_, by rw [String.toList_append, Value.toList_render]⟩

theorem ne_nil (escapes : options.escapes = .json) {value : Value}
    (inTurn : InTurn options (value :: values) text) (readable : Readable options value) :
    text ≠ "" := by
  obtain ⟨behind, split⟩ := inTurn.exists_append
  obtain ⟨first, rest, begins, -, -⟩ := readable.exists_cons_chars escapes
  rintro rfl
  simp [begins] at split

/-- In front of the text of a further value, with what there has to be between the two, a value is
found, and the blanks between them are passed with it. -/
theorem parseValue_eq {reader : Reader} (escapes : reader.options.escapes = .json)
    {value next : Value} {blanks : String} (readable : Readable reader.options value)
    (readableNext : Readable reader.options next)
    (blank : Blanks reader.options blanks.toList)
    (apart : blanks = "" → value.kind = .number → next.kind = .number →
      ClearOf Char.isDigit next.render.toList)
    (inTurn : InTurn reader.options (next :: values) text) :
    reader.parseValue (value.render ++ (blanks ++ text)) = some (value, text) := by
  obtain ⟨behind, split⟩ := inTurn.exists_append
  obtain ⟨first, rest, begins, black, announced⟩ := readableNext.exists_cons_chars escapes
  rw [begins, List.cons_append] at split
  refine reader.parseValue_eq_some_iff.mpr ⟨value.chars ++ blanks.toList, ?_, ?_⟩
  · rw [String.toList_append, String.toList_append, Value.toList_render, List.append_assoc]
  · refine ((readable.element escapes).append_blanks blank).before_of_kind ?_ ?_
    · rw [split]
      exact clearOf_cons.mpr black
    · intro kind last ends digit
      rw [split]
      refine clearOf_cons.mpr (not_prolongs_of_announces announced ?_)
      rcases List.eq_nil_or_concat blanks.toList with none | ⟨front, final, filled⟩
      · -- The value is a number, and another one is kept apart.
        cases noDigit : first.isDigit with
        | false => rfl
        | true =>
            rw [announces_of_isDigit noDigit, Option.some.injEq] at announced
            have clear := apart (String.toList_eq_nil_iff.mp none) kind announced.symm
            rw [Value.toList_render, begins, clearOf_cons, noDigit] at clear
            exact clear
      · -- A blank is no digit.
        rw [filled, List.concat_eq_append, ← List.append_assoc, List.getLast?_concat,
          Option.some.injEq] at ends
        subst ends
        have isBlank := blank final (by simp [filled])
        rw [not_isBlank_of_not_isWhiteSpace (not_isWhiteSpace_of_isDigit digit)] at isBlank
        exact Bool.noConfusion isBlank

/-- All the values are taken off in turn, and nothing is left. -/
theorem parseStream_eq {reader : Reader} (escapes : reader.options.escapes = .json)
    (inTurn : InTurn reader.options values text)
    (readable : ∀ value ∈ values, Readable reader.options value) :
    (reader.parseStream text).map (Option.map Prod.fst) = values.map some ∧
      (((reader.parseStream text).filterMap id).map Prod.snd).getLastD text = "" := by
  induction inTurn with
  | last value =>
      have found := (List.forall_mem_singleton.mp readable).parseValue_render escapes
      rw [Reader.parseStream_of_nil found]
      exact ⟨rfl, rfl⟩
  | more blank apart inTurn ih =>
      obtain ⟨readableFirst, readableOthers⟩ := List.forall_mem_cons.mp readable
      have readableNext := readableOthers _ List.mem_cons_self
      have found := inTurn.parseValue_eq escapes readableFirst readableNext blank apart
      rw [Reader.parseStream_of_ne_nil found (inTurn.ne_nil escapes readableNext)]
      obtain ⟨all, ended⟩ := ih readableOthers
      refine ⟨by rw [List.map_cons, all]; rfl, ?_⟩
      simp only [List.filterMap_cons, id, List.map_cons, List.getLastD_cons]
      exact ended

end InTurn

/-- A stream takes value after value off a text, no more of them than there are characters, and what
they pass with what is left in the end is the text.  From the texts of values one after another,
with blanks or without between them, it takes just these values in turn, and nothing is left. -/
theorem Reader.parseStream_inTurn (reader : Reader) :
    (∀ text : String,
      Iterates reader text (reader.parseStream text) ∧
      ((reader.parseStream text).filterMap id).length ≤ text.length ∧
      String.join (piecesBetween text (((reader.parseStream text).filterMap id).map Prod.snd)) ++
        (((reader.parseStream text).filterMap id).map Prod.snd).getLastD text = text) ∧
    (reader.options.escapes = .json → ∀ (values : List Value) (text : String),
      InTurn reader.options values text →
      (∀ value ∈ values, Readable reader.options value) →
      (reader.parseStream text).map (Option.map Prod.fst) = values.map some ∧
        (((reader.parseStream text).filterMap id).map Prod.snd).getLastD text = "") := by
  constructor
  · intro text
    have iterates := reader.iterates_parseStream text
    exact ⟨iterates, iterates.length_le, iterates.join_piecesBetween⟩
  · intro escapes values text inTurn readable
    exact inTurn.parseStream_eq escapes readable

/-- Two zeros need no blank between them if the second one has a sign. -/
theorem Reader.parseStream_zeros :
    InTurn {} [.number (.zero false), .number (.zero true), .bool true] "0-0\ntrue" ∧
      (Reader.parseStream {} "0-0\ntrue").map (Option.map Prod.fst) =
        [some (.number (.zero false)), some (.number (.zero true)), some (.bool true)] := by
  have written : (Value.number (.zero false)).render ++
      ("" ++ ((Value.number (.zero true)).render ++ ("\n" ++ (Value.bool true).render))) =
        "0-0\ntrue" := by
    apply String.toList_injective
    simp only [String.toList_append, Value.toList_render]
    decide
  have lineFeed : Blanks {} "\n".toList := by simp [Blanks, Options.isBlank]
  have inTurn : InTurn {} [.number (.zero false), .number (.zero true), .bool true]
      "0-0\ntrue" := by
    rw [← written]
    refine .more (by simp) (fun _ _ _ => ?_)
      (.more lineFeed (fun nothing => absurd nothing (by decide)) (.last _))
    rw [Value.toList_render]
    exact clearOf_cons.mpr rfl
  refine ⟨inTurn, ((parseStream_inTurn {}).2 rfl _ _ inTurn ?_).1⟩
  have readable (value : Value) (depth : value.depth = 0) (finite : value.numbersFinite = true)
      (distinct : value.keysDistinct = true) : Readable {} value :=
    ⟨finite, distinct, by rw [depth]; exact Nat.zero_le _⟩
  simp only [List.forall_mem_cons]
  exact ⟨readable _ rfl rfl rfl, readable _ rfl rfl rfl, readable _ rfl rfl rfl, by simp⟩

end TextGrammar.Json
