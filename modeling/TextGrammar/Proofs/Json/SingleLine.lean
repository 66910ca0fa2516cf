import Mathlib.Algebra.Ring.Parity
import Mathlib.Data.List.DropRight
import TextGrammar.Proofs.Json.Written

/-!
# The text of a value on one line

No character of a value's text ends a line or has a meaning to a terminal, and outside of strings
there is no white space.  Where a string ends can be told by counting: a quote with an odd number of
backslashes in front of it belongs to the string, and one with an even number ends it.  Read so, the
strings of the text are the strings and the keys in the value.

Since there is no line feed in the text of a value, the texts of values can be put on lines of their
own and taken apart again.
-/

namespace TextGrammar.Json

/-- The control characters and the separators of lines and paragraphs. -/
def Disturbs (character : Char) : Prop :=
  character.toNat ≤ 0x1F ∨ (0x7F ≤ character.toNat ∧ character.toNat ≤ 0x9F) ∨
    character.toNat = 0x2028 ∨ character.toNat = 0x2029

instance : DecidablePred Disturbs := fun _ => inferInstanceAs (Decidable (_ ∨ _ ∨ _ ∨ _))

/-! ## Backslashes in front of a quote -/

/-- How many backslashes stand at the end of a text, one behind the other. -/
def backslashesAtEnd (text : List Char) : Nat :=
  (text.rtakeWhile (· == '\\')).length

theorem backslashesAtEnd_concat (text : List Char) (last : Char) :
    backslashesAtEnd (text ++ [last]) =
      if last = '\\' then backslashesAtEnd text + 1 else 0 := by
  rw [backslashesAtEnd, List.rtakeWhile_concat]
  by_cases backslash : last = '\\' <;> simp [backslash, backslashesAtEnd]

/-- What may stand between the quotes of a string. -/
structure LiteralBody (body : List Char) : Prop where
  /-- In front of a quote is an odd number of backslashes. -/
  escaped : ∀ front back, body = front ++ '"' :: back → Odd (backslashesAtEnd front)
  /-- In front of the quote that ends the string is an even number of them. -/
  closed : Even (backslashesAtEnd body)
  undisturbed : ∀ character ∈ body, ¬Disturbs character

/-- A quote in two texts stands in the first or in the second. -/
theorem quote_of_append {front back text behind : List Char}
    (split : front ++ back = text ++ '"' :: behind) :
    (∃ rest, front = text ++ '"' :: rest) ∨
      ∃ between, text = front ++ between ∧ back = between ++ '"' :: behind := by
  rcases List.append_eq_append_iff.mp split with ⟨between, inFront, inBack⟩ | ⟨rest, inFront, inBack⟩
  · exact .inr ⟨between, inFront, inBack⟩
  · cases rest with
    | nil => exact .inr ⟨[], by simpa using inFront.symm, inBack.symm⟩
    | cons quote rest =>
        obtain ⟨rfl, -⟩ := List.cons.inj inBack
        exact .inl ⟨rest, inFront⟩

namespace LiteralBody

variable {body : List Char}

theorem nil : LiteralBody [] where
  escaped front back split := by simp at split
  closed := ⟨0, rfl⟩
  undisturbed := List.forall_mem_nil _

/-- A character that is neither a quote nor a backslash. -/
theorem concat (literal : LiteralBody body) {character : Char} (noQuote : character ≠ '"')
    (noBackslash : character ≠ '\\') (quiet : ¬Disturbs character) :
    LiteralBody (body ++ [character]) where
  escaped front back split := by
    rcases quote_of_append split with ⟨rest, inBody⟩ | ⟨between, -, last⟩
    · exact literal.escaped front rest inBody
    · have isLast : '"' ∈ [character] := by
        rw [last]
        exact List.mem_append_right _ List.mem_cons_self
      exact absurd (List.mem_singleton.mp isLast).symm noQuote
  closed := by
    rw [backslashesAtEnd_concat, if_neg noBackslash]
    exact ⟨0, rfl⟩
  undisturbed :=
    List.forall_mem_append.mpr ⟨literal.undisturbed, List.forall_mem_singleton.mpr quiet⟩

/-- A backslash with the character that it takes, which may be a quote or a backslash. -/
theorem append_pair (literal : LiteralBody body) {mark : Char} (quiet : ¬Disturbs mark) :
    LiteralBody (body ++ ['\\', mark]) where
  escaped front back split := by
    rcases quote_of_append split with ⟨rest, inBody⟩ | ⟨between, inFront, last⟩
    · exact literal.escaped front rest inBody
    · cases between with
      | nil => exact absurd (List.cons.inj last).1 (by decide)
      | cons backslash between =>
          obtain ⟨rfl, last⟩ := List.cons.inj last
          cases between with
          | cons _ _ => simp at last
          | nil =>
              rw [inFront, backslashesAtEnd_concat, if_pos rfl]
              exact literal.closed.add_one
  closed := by
    rw [List.append_cons, backslashesAtEnd_concat, backslashesAtEnd_concat, if_pos rfl]
    split
    · exact literal.closed.add_one.add_one
    · exact ⟨0, rfl⟩
  undisturbed :=
    List.forall_mem_append.mpr ⟨literal.undisturbed,
      List.forall_mem_cons.mpr ⟨by decide, List.forall_mem_singleton.mpr quiet⟩⟩

/-- The quote that ends a string is the first one that can. -/
theorem append_inj {other text behind : List Char} (literal : LiteralBody body)
    (literalOther : LiteralBody other) (same : body ++ '"' :: text = other ++ '"' :: behind) :
    body = other ∧ text = behind := by
  have odd {short long rest : List Char} (isShort : LiteralBody short) (isLong : LiteralBody long)
      (split : long = short ++ '"' :: rest) : False :=
    Nat.not_even_iff_odd.mpr (isLong.escaped short rest split) isShort.closed
  rcases quote_of_append same with ⟨rest, longer⟩ | ⟨between, longer, ending⟩
  · exact (odd literalOther literal longer).elim
  · cases between with
    | nil => exact ⟨by simpa using longer.symm, (List.cons.inj ending).2⟩
    | cons quote between =>
        obtain ⟨rfl, -⟩ := List.cons.inj ending
        exact (odd literal literalOther longer).elim

end LiteralBody

/-! ## Texts without white space -/

/-- What may stand outside of strings. -/
def Outside (character : Char) : Prop :=
  character ≠ '"' ∧ Text.isWhiteSpace character = false ∧ ¬Disturbs character

instance : DecidablePred Outside := fun _ => inferInstanceAs (Decidable (_ ∧ _ ∧ _))

/-- A text without white space outside of its strings, with the bodies of these in order. -/
inductive Compact : List Char → List (List Char) → Prop where
  | nil : Compact [] []
  | outside {character : Char} {text : List Char} {bodies : List (List Char)} :
      Outside character → Compact text bodies → Compact (character :: text) bodies
  | literal {body text : List Char} {bodies : List (List Char)} : LiteralBody body →
      Compact text bodies → Compact ('"' :: (body ++ '"' :: text)) (body :: bodies)

namespace Compact

variable {text : List Char} {bodies : List (List Char)}

theorem append {behind : List Char} {bodiesBehind : List (List Char)} (compact : Compact text bodies)
    (compactBehind : Compact behind bodiesBehind) :
    Compact (text ++ behind) (bodies ++ bodiesBehind) := by
  induction compact with
  | nil => exact compactBehind
  | outside allowed _ ih => exact .outside allowed ih
  | literal body _ ih =>
      rw [List.cons_append, List.append_assoc, List.cons_append]
      exact .literal body ih

theorem of_forall (allowed : ∀ character ∈ text, Outside character) : Compact text [] := by
  induction text with
  | nil => exact .nil
  | cons character text ih =>
      obtain ⟨allowedFirst, allowedRest⟩ := List.forall_mem_cons.mp allowed
      exact .outside allowedFirst (ih allowedRest)

theorem of_all (allowed : text.all fun character => Outside character) : Compact text [] := by
  apply of_forall
  simpa using allowed

/-- One character in front and one behind. -/
theorem enclosed {opening closing : Char} (compact : Compact text bodies)
    (allowedOpening : Outside opening) (allowedClosing : Outside closing) :
    Compact (opening :: (text ++ [closing])) bodies := by
  have closed := compact.append (.outside allowedClosing .nil)
  rw [List.append_nil] at closed
  exact .outside allowedOpening closed

/-- Texts with commas between them. -/
theorem intercalate {ι : Type} {parts : List ι} {text : ι → List Char}
    {bodies : ι → List (List Char)} (compact : ∀ part ∈ parts, Compact (text part) (bodies part)) :
    Compact ([','].intercalate (parts.map text)) (parts.flatMap bodies) := by
  cases parts with
  | nil => exact .nil
  | cons first others =>
      obtain ⟨compactFirst, compactOthers⟩ := List.forall_mem_cons.mp compact
      rw [List.map_cons, Parser.intercalate_cons, List.flatMap_cons]
      apply compactFirst.append
      clear compact compactFirst
      induction others with
      | nil => exact .nil
      | cons next others ih =>
          obtain ⟨compactNext, compactRest⟩ := List.forall_mem_cons.mp compactOthers
          exact .outside (by decide) (compactNext.append (ih compactRest))

/-- Nothing in such a text disturbs. -/
theorem not_disturbs (compact : Compact text bodies) :
    ∀ character ∈ text, ¬Disturbs character := by
  induction compact with
  | nil => exact List.forall_mem_nil _
  | outside allowed _ ih => exact List.forall_mem_cons.mpr ⟨allowed.2.2, ih⟩
  | literal body _ ih =>
      have quote : ¬Disturbs '"' := by decide
      exact List.forall_mem_cons.mpr ⟨quote,
        List.forall_mem_append.mpr ⟨body.undisturbed, List.forall_mem_cons.mpr ⟨quote, ih⟩⟩⟩

/-- There is one way only to tell the strings in such a text. -/
theorem unique {others : List (List Char)} (compact : Compact text bodies)
    (again : Compact text others) : bodies = others := by
  induction compact generalizing others with
  | nil =>
      cases again
      rfl
  | outside allowed _ ih =>
      cases again with
      | outside _ rest => exact ih rest
      | literal _ _ => exact absurd rfl allowed.1
  | @literal body text bodies literal _ ih =>
      generalize whole : '"' :: (body ++ '"' :: text) = line at again
      cases again with
      | nil => cases whole
      | outside allowed _ => exact absurd (List.cons.inj whole).1.symm allowed.1
      | literal literalOther rest =>
          obtain ⟨rfl, rfl⟩ := literal.append_inj literalOther (List.cons.inj whole).2
          rw [ih rest]

end Compact

/-! ## Strings -/

theorem not_disturbs_of_not_isWrittenByCode {character : Char}
    (plain : isWrittenByCode character = false) : ¬Disturbs character := by
  simp [isWrittenByCode, Text.isControl, Text.isSeparator, Text.inRanges, Text.controlRanges]
    at plain
  simp only [Disturbs]
  omega

/-- The digits that are written for a code unit. -/
theorem literalBody_append_fourHexDigits {body : List Char} (literal : LiteralBody body)
    (number : Nat) : LiteralBody (body ++ Text.fourHexDigits number) := by
  have digits : ∀ value < 16, Text.hexDigit value ≠ '"' ∧ Text.hexDigit value ≠ '\\' ∧
      ¬Disturbs (Text.hexDigit value) := by decide
  have append {front : List Char} (isLiteral : LiteralBody front) (value : Nat) :
      LiteralBody (front ++ [Text.hexDigit (value % 16)]) := by
    obtain ⟨noQuote, noBackslash, quiet⟩ := digits (value % 16) (Nat.mod_lt _ (by decide))
    exact isLiteral.concat noQuote noBackslash quiet
  have four := append (append (append (append literal (number / 4096)) (number / 256))
    (number / 16)) number
  simpa [Text.fourHexDigits] using four

/-- A character is written so that it does not end the string. -/
theorem literalBody_append_escape {body : List Char} (literal : LiteralBody body)
    (character : Char) : LiteralBody (body ++ escape character) := by
  unfold escape
  split
  · next marked =>
      apply literal.append_pair
      rcases marked with rfl | rfl <;> decide
  · next unmarked =>
      obtain ⟨noQuote, noBackslash⟩ := not_or.mp unmarked
      split
      · next coded =>
          have begun : LiteralBody (body ++ ['\\', 'u']) := literal.append_pair (by decide)
          simpa using literalBody_append_fourHexDigits begun character.toNat
      · next plain =>
          exact literal.concat noQuote noBackslash
            (not_disturbs_of_not_isWrittenByCode (Bool.eq_false_of_not_eq_true plain))

theorem literalBody_flatMap_escape (characters : List Char) :
    LiteralBody (characters.flatMap escape) := by
  induction characters using List.reverseRecOn with
  | nil => exact .nil
  | append_singleton characters last ih =>
      rw [List.flatMap_append, List.flatMap_singleton]
      exact literalBody_append_escape ih last

theorem compact_quoted (text : String) : Compact (quoted text) [text.toList.flatMap escape] :=
  .literal (literalBody_flatMap_escape text.toList) .nil

/-! ## Numbers -/

theorem outside_of_isDigit {character : Char} (digit : character.isDigit = true) :
    Outside character := by
  have bounds : 48 ≤ character.toNat ∧ character.toNat ≤ 57 := Char.isDigit_iff_toNat.mp digit
  refine ⟨Decimal.ne_of_isDigit digit '"' rfl, not_isWhiteSpace_of_isDigit digit, ?_⟩
  simp only [Disturbs]
  omega

theorem compact_number (number : Binary64) : Compact (number.chars .plain) [] := by
  cases number with
  | infinity negative => cases negative <;> exact .of_all (by decide)
  | nan => exact .of_all (by decide)
  | finite negative rank =>
      have marks : ['+', '-', '.', 'e', 'E'].all fun mark => Outside mark := by decide
      have finite : (Binary64.finite negative rank).isFinite = true := rfl
      obtain ⟨decimal, numeral, -⟩ := Binary64.exists_numeral_chars finite
      apply Compact.of_forall
      intro character member
      cases numeral.isDigit_or_mem_marks character member with
      | inl digit => exact outside_of_isDigit digit
      | inr mark => exact of_decide_eq_true (List.all_eq_true.mp marks character mark)

/-! ## Values -/

namespace Value

mutual

/-- The strings and keys in a value, in order. -/
def strings : Value → List String
  | null => []
  | bool _ => []
  | number _ => []
  | string text => [text]
  | array items => stringsOfItems items
  | object ⟨entries⟩ => stringsOfEntries entries

/-- The strings and keys in the items. -/
def stringsOfItems : List Value → List String
  | [] => []
  | item :: items => item.strings ++ stringsOfItems items

/-- The keys of the entries, each with the strings and keys in its value. -/
def stringsOfEntries : List (String × Value) → List String
  | [] => []
  | (key, value) :: entries => key :: (value.strings ++ stringsOfEntries entries)

end

theorem strings_array (items : List Value) : (array items).strings = items.flatMap strings := by
  rw [strings]
  induction items with
  | nil => rfl
  | cons item items ih => rw [stringsOfItems, ih, List.flatMap_cons]

theorem strings_object (members : Members Value) :
    (object members).strings =
      members.entries.flatMap fun entry => entry.1 :: entry.2.strings := by
  cases members with
  | mk entries =>
      rw [strings]
      induction entries with
      | nil => rfl
      | cons entry entries ih => rw [stringsOfEntries, ih, List.flatMap_cons, List.cons_append]

/-- The text of a value has no white space outside of its strings, which are those of the value. -/
theorem compact_chars (value : Value) :
    Compact value.chars (value.strings.map fun text => text.toList.flatMap escape) := by
  induction value using Value.induction with
  | null => exact .of_all (by decide)
  | bool truth => cases truth <;> exact .of_all (by decide)
  | number number => exact compact_number number
  | string text => exact compact_quoted text
  | array items ih =>
      rw [chars_array, strings_array, List.map_flatMap]
      exact (Compact.intercalate ih).enclosed (by decide) (by decide)
  | object members ih =>
      rw [chars_object, strings_object, List.map_flatMap]
      refine (Compact.intercalate fun entry member => ?_).enclosed (by decide) (by decide)
      exact (compact_quoted entry.1).append (.outside (by decide) (ih entry member))

/-- The text of a value is one line on which nothing disturbs a terminal.  It has no white space
outside of its strings, where an odd number of backslashes stands in front of every quote and an even
number in front of the one that ends the string; and the strings that are told so are those of the
value.  The texts of values that are put on lines of their own are what is found on these lines. -/
theorem render_singleLine :
    (∀ value : Value, (∀ character ∈ value.render.toList, ¬Disturbs character) ∧
      ∀ bodies, Compact value.render.toList bodies ↔
        bodies = value.strings.map fun text => text.toList.flatMap escape) ∧
    ∀ values : List Value, values ≠ [] →
      (("\n".intercalate (values.map render)).split '\n').toList.map (·.copy) =
        values.map render := by
  constructor
  · intro value
    rw [toList_render]
    have compact := value.compact_chars
    refine ⟨compact.not_disturbs, fun bodies => ?_⟩
    constructor
    · intro again
      exact (compact.unique again).symm
    · intro same
      rw [same]
      exact compact
  · intro values filled
    have noLineFeed : ∀ text ∈ values.map render, '\n' ∉ text.toList := by
      rw [List.forall_mem_map]
      intro value _ member
      rw [toList_render] at member
      exact value.compact_chars.not_disturbs _ member (by decide)
    have lines := String.toList_split_intercalate noLineFeed
    rw [if_neg (by simpa using filled)] at lines
    exact lines

/-- A string that ends in a backslash, behind a key with a quote and a line feed in it. -/
theorem render_singleLine_quote :
    Compact (object ⟨[("\"\n", string "\\")]⟩).render.toList
        ["\\\"\\u000A".toList, "\\\\".toList] ∧
      (("\n".intercalate (([string "\\", array []] : List Value).map render)).split
          '\n').toList.map (·.copy) = [(string "\\").render, (array []).render] := by
  obtain ⟨compact, lines⟩ := render_singleLine
  exact ⟨((compact _).2 _).mpr (by decide), lines _ (List.cons_ne_nil _ _)⟩

end Value

end TextGrammar.Json
