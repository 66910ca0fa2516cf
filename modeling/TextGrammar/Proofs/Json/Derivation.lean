import TextGrammar.Proofs.Decimal.Numeral
import TextGrammar.Proofs.Json.Bracketed
import TextGrammar.Proofs.Json.Quotation

/-!
# The language of JSON texts

    element = blank* bare blank*
    bare    = null | true | false | numeral | quotation
            | [ blank* ] | [ element (, element)* ]
            | { blank* } | { member (, member)* }
    member  = blank* quotation blank* : element

A derivation says what a text means, not how it is read.  It carries the number of brackets that may
still be open at once.  What kind of value a text means can be told from its first character that is
not blank.
-/

namespace TextGrammar.Json

open TextGrammar.Decimal

mutual

/-- A value with blanks on both sides. -/
inductive Element (options : Options) : Nat → List Char → Value → Prop where
  | intro {depth : Nat} {before text after : List Char} {value : Value} :
      Blanks options before → Bare options depth text value → Blanks options after →
      Element options depth (before ++ (text ++ after)) value

/-- A value without blanks around it, in which at most `depth` brackets are open at once. -/
inductive Bare (options : Options) : Nat → List Char → Value → Prop where
  | null {depth : Nat} : Bare options depth "null".toList .null
  | truth {depth : Nat} : Bare options depth "true".toList (.bool true)
  | falsehood {depth : Nat} : Bare options depth "false".toList (.bool false)
  | number {depth : Nat} {text : List Char} {decimal : Decimal} : Numeral text decimal →
      decimal.toBinary64.isFinite = true → Bare options depth text (.number decimal.toBinary64)
  | string {depth : Nat} {text : List Char} {content : String} :
      Quotation options.escapes text content → Bare options depth text (.string content)
  | emptyArray {depth : Nat} {blanks : List Char} : Blanks options blanks →
      Bare options (depth + 1) ('[' :: (blanks ++ [']'])) (.array [])
  | array {depth : Nat} {parts : List (List Char × Value)} : parts ≠ [] →
      (∀ part ∈ parts, Element options depth part.1 part.2) →
      Bare options (depth + 1) ('[' :: ([','].intercalate (parts.map Prod.fst) ++ [']']))
        (.array (parts.map Prod.snd))
  | emptyObject {depth : Nat} {blanks : List Char} : Blanks options blanks →
      Bare options (depth + 1) ('\x7b' :: (blanks ++ ['\x7d'])) (.object (.ofList []))
  | object {depth : Nat} {parts : List (List Char × (String × Value))} : parts ≠ [] →
      (∀ part ∈ parts, Member options depth part.1 part.2) →
      Bare options (depth + 1) ('\x7b' :: ([','].intercalate (parts.map Prod.fst) ++ ['\x7d']))
        (.object (.ofList (parts.map Prod.snd)))

/-- A key amid blanks with the element that belongs to it. -/
inductive Member (options : Options) : Nat → List Char → String × Value → Prop where
  | intro {depth : Nat} {before name after text : List Char} {key : String} {value : Value} :
      Blanks options before → Quotation options.escapes name key → Blanks options after →
      Element options depth text value →
      Member options depth (before ++ (name ++ (after ++ ':' :: text))) (key, value)

end

variable {options : Options} {depth : Nat} {text : List Char}

theorem Bare.element {value : Value} (bare : Bare options depth text value) :
    Element options depth text value := by
  simpa using Element.intro blanks_nil bare blanks_nil

theorem Element.exists_bare {value : Value} (element : Element options depth text value) :
    ∃ core, Bare options depth core value := by
  cases element with
  | intro _ bare _ => exact ⟨_, bare⟩

theorem Member.exists_bare {entry : String × Value} (isMember : Member options depth text entry) :
    ∃ core, Bare options depth core entry.2 := by
  cases isMember with
  | intro _ _ _ element => exact element.exists_bare

/-! ## Blanks around a part -/

section Blanks

variable {blanks : List Char}

/-- Blanks in front of an element belong to it. -/
theorem Element.prepend_blanks {value : Value} (element : Element options depth text value)
    (blank : Blanks options blanks) : Element options depth (blanks ++ text) value := by
  cases element with
  | intro blankBefore bare blankAfter =>
      rw [← List.append_assoc]
      exact .intro (blank.append blankBefore) bare blankAfter

/-- Blanks behind an element belong to it. -/
theorem Element.append_blanks {value : Value} (element : Element options depth text value)
    (blank : Blanks options blanks) : Element options depth (text ++ blanks) value := by
  cases element with
  | intro blankBefore bare blankAfter =>
      rw [List.append_assoc, List.append_assoc]
      exact .intro blankBefore bare (blankAfter.append blank)

/-- Blanks in front of a member belong to its key. -/
theorem Member.prepend_blanks {entry : String × Value}
    (isMember : Member options depth text entry) (blank : Blanks options blanks) :
    Member options depth (blanks ++ text) entry := by
  cases isMember with
  | intro blankBefore quotation blankAfter element =>
      rw [← List.append_assoc]
      exact .intro (blank.append blankBefore) quotation blankAfter element

/-- Blanks behind a member belong to its value. -/
theorem Member.append_blanks {entry : String × Value}
    (isMember : Member options depth text entry) (blank : Blanks options blanks) :
    Member options depth (text ++ blanks) entry := by
  cases isMember with
  | intro blankBefore quotation blankAfter element =>
      rw [List.append_assoc, List.append_assoc, List.append_assoc]
      exact .intro blankBefore quotation blankAfter (element.append_blanks blank)

end Blanks

/-! ## Each kind by itself -/

@[simp] theorem bare_null_iff : Bare options depth text .null ↔ text = "null".toList := by
  constructor
  · rintro ⟨⟩
    rfl
  · rintro rfl
    exact .null

@[simp] theorem bare_bool_iff {truth : Bool} :
    Bare options depth text (.bool truth) ↔ text = (toString truth).toList := by
  constructor
  · rintro ⟨⟩ <;> rfl
  · rintro rfl
    cases truth with
    | true => exact .truth
    | false => exact .falsehood

@[simp] theorem bare_number_iff {number : Binary64} :
    Bare options depth text (.number number) ↔
      ∃ decimal, Numeral text decimal ∧ decimal.toBinary64 = number ∧ number.isFinite = true := by
  constructor
  · intro bare
    cases bare with
    | number numeral finite => exact ⟨_, numeral, rfl, finite⟩
  · rintro ⟨decimal, numeral, rfl, finite⟩
    exact .number numeral finite

@[simp] theorem bare_string_iff {content : String} :
    Bare options depth text (.string content) ↔ Quotation options.escapes text content := by
  constructor
  · intro bare
    cases bare with
    | string quotation => exact quotation
  · exact .string

/-- An array is a container of elements. -/
theorem bare_array_iff {items : List Value} :
    Bare options (depth + 1) text (.array items) ↔
      Bracketed options '[' ']' (Element options depth) text items := by
  constructor
  · intro bare
    cases bare with
    | emptyArray blank => exact .empty blank
    | array filled all => exact .filled filled all
  · intro bracketed
    cases bracketed with
    | empty blank => exact .emptyArray blank
    | filled filled all => exact .array filled all

/-- An object is a container of pairs, stored one after another. -/
theorem bare_object_iff {members : Members Value} :
    Bare options (depth + 1) text (.object members) ↔
      ∃ entries, Bracketed options '\x7b' '\x7d' (Member options depth) text entries ∧
        members = .ofList entries := by
  constructor
  · intro bare
    cases bare with
    | emptyObject blank => exact ⟨_, .empty blank, rfl⟩
    | object filled all => exact ⟨_, .filled filled all, rfl⟩
  · rintro ⟨entries, bracketed, rfl⟩
    cases bracketed with
    | empty blank => exact .emptyObject blank
    | filled filled all => exact .object filled all

/-! ## Kinds of values -/

/-- The kinds of values. -/
inductive Kind where
  | null
  | bool
  | number
  | string
  | array
  | object
  deriving DecidableEq

/-- The kind of a value. -/
def Value.kind : Value → Kind
  | null => .null
  | bool _ => .bool
  | number _ => .number
  | string _ => .string
  | array _ => .array
  | object _ => .object

/-- The kind of value that a first character announces, if there is one. -/
def announces (character : Char) : Option Kind :=
  if character = 'n' then some .null
  else if character = 't' ∨ character = 'f' then some .bool
  else if character = '-' ∨ character.isDigit = true then some .number
  else if character = '"' then some .string
  else if character = '[' then some .array
  else if character = '\x7b' then some .object
  else none

theorem announces_of_isDigit {character : Char} (digit : character.isDigit = true) :
    announces character = some .number := by
  have different {other : Char} (noDigit : other.isDigit = false) : character ≠ other :=
    ne_of_isDigit digit other noDigit
  simp [announces, digit, different]

theorem eq_of_announces {character : Char} {kind : Kind}
    (announced : announces character = some kind) :
    (character = 'n' ∨ character = 't' ∨ character = 'f' ∨ character = '-' ∨ character = '"' ∨
      character = '[' ∨ character = '\x7b') ∨ character.isDigit = true := by
  unfold announces at announced
  grind

/-- What announces a value is neither white space nor a delimiter. -/
theorem not_isWhiteSpace_of_announces {character : Char} {kind : Kind}
    (announced : announces character = some kind) : Text.isWhiteSpace character = false := by
  rcases eq_of_announces announced with mark | digit
  · rcases mark with rfl | rfl | rfl | rfl | rfl | rfl | rfl <;> rfl
  · exact not_isWhiteSpace_of_isDigit digit

theorem not_delimits_of_announces {character : Char} {kind : Kind}
    (announced : announces character = some kind) : delimits character = false := by
  rcases eq_of_announces announced with mark | digit
  · rcases mark with rfl | rfl | rfl | rfl | rfl | rfl | rfl <;> rfl
  · simp [delimits, ne_of_isDigit digit]

theorem exists_announced_of_numeral {decimal : Decimal} (numeral : Numeral text decimal) :
    ∃ first rest, text = first :: rest ∧ announces first = some .number := by
  obtain ⟨first, rest, rfl, rfl | digit⟩ := numeral.exists_cons
  · exact ⟨'-', rest, rfl, rfl⟩
  · exact ⟨first, rest, rfl, announces_of_isDigit digit⟩

/-- The first character of a value announces its kind. -/
theorem Bare.exists_cons {value : Value} (bare : Bare options depth text value) :
    ∃ first rest, text = first :: rest ∧ announces first = some value.kind := by
  cases bare with
  | null => exact ⟨'n', _, rfl, rfl⟩
  | truth => exact ⟨'t', _, rfl, rfl⟩
  | falsehood => exact ⟨'f', _, rfl, rfl⟩
  | number numeral _ => exact exists_announced_of_numeral numeral
  | string quotation =>
      obtain ⟨rest, rfl⟩ := quotation.exists_cons
      exact ⟨'"', rest, rfl, rfl⟩
  | emptyArray _ => exact ⟨'[', _, rfl, rfl⟩
  | array _ _ => exact ⟨'[', _, rfl, rfl⟩
  | emptyObject _ => exact ⟨'\x7b', _, rfl, rfl⟩
  | object _ _ => exact ⟨'\x7b', _, rfl, rfl⟩

end TextGrammar.Json
