import Mathlib.Data.List.Forall2
import Mathlib.Data.Nat.Digits.Defs
import TextGrammar.Json.Grammar
import TextGrammar.Proofs.Parser.Repetition
import TextGrammar.Proofs.Text.Utf16

/-!
# What a string passes

A string is a sequence of items between quotes, each of which spells one character.  Without escapes
an item is any character but the quote.  With escapes it is a plain character, one of eight short
escapes, a code unit in hexadecimal, or two code units that are the halves of a surrogate pair.  A
code unit has four digits of either case, and every number of sixteen bits is one.

No item is the beginning of another, so a string needs no look at what follows it.
-/

namespace TextGrammar.Json

open TextGrammar.Parser

/-! ## The language of strings -/

/-- The eight escapes of two characters: the character behind the backslash, and what it stands
for. -/
inductive ShortEscape : Char → Char → Prop where
  | quote : ShortEscape '"' '"'
  | backslash : ShortEscape '\\' '\\'
  | slash : ShortEscape '/' '/'
  | backspace : ShortEscape 'b' '\x08'
  | formFeed : ShortEscape 'f' '\x0c'
  | lineFeed : ShortEscape 'n' '\n'
  | carriageReturn : ShortEscape 'r' '\r'
  | tabulator : ShortEscape 't' '\t'

/-- Four hexadecimal digits and the number they spell. -/
inductive CodeUnit : List Char → Nat → Prop where
  | intro {first second third fourth : Char} {a b c d : Nat} :
      Text.hexValue? first = some a → Text.hexValue? second = some b →
      Text.hexValue? third = some c → Text.hexValue? fourth = some d →
      CodeUnit [first, second, third, fourth] (4096 * a + 256 * b + 16 * c + d)

/-- A part of a string that spells one character. -/
inductive Item : EscapeMode → List Char → Char → Prop where
  | literal {character : Char} : character ≠ '"' → Item .literal [character] character
  | plain {character : Char} : character ≠ '"' → character ≠ '\\' → 0x20 ≤ character.toNat →
      Item .json [character] character
  | short {mark character : Char} : ShortEscape mark character →
      Item .json ['\\', mark] character
  | unit {digits : List Char} {character : Char} : CodeUnit digits character.toNat →
      Item .json ('\\' :: 'u' :: digits) character
  | pair {highDigits lowDigits : List Char} {high low : Nat} {character : Char} :
      CodeUnit highDigits high → 0xD800 ≤ high → high < 0xDC00 →
      CodeUnit lowDigits low → 0xDC00 ≤ low → low < 0xE000 →
      character.toNat = 0x10000 + (high - 0xD800) * 0x400 + (low - 0xDC00) →
      Item .json ('\\' :: 'u' :: (highDigits ++ '\\' :: 'u' :: lowDigits)) character

/-- A string with its quotes, and what it spells. -/
inductive Quotation (mode : EscapeMode) : List Char → String → Prop where
  | intro {body characters : List Char} : Strung (Item mode) body characters →
      Quotation mode ('"' :: (body ++ ['"'])) (.ofList characters)

/-- A string begins with a quote. -/
theorem Quotation.exists_cons {mode : EscapeMode} {text : List Char} {content : String}
    (quotation : Quotation mode text content) : ∃ rest, text = '"' :: rest := by
  cases quotation with
  | intro _ => exact ⟨_, rfl⟩

/-! ## Code units by their digits -/

theorem ofDigits_four (a b c d : Nat) :
    Nat.ofDigits 16 [d, c, b, a] = 4096 * a + 256 * b + 16 * c + d := by
  simp only [Nat.ofDigits_cons, Nat.ofDigits_nil]
  omega

/-- A code unit is spelled by four hexadecimal digits of either case, the leading one first. -/
theorem codeUnit_iff {digits : List Char} {unit : Nat} :
    CodeUnit digits unit ↔ digits.length = 4 ∧
      ∃ worths, List.Forall₂ Text.HexDigit digits worths ∧
        unit = Nat.ofDigits 16 worths.reverse := by
  constructor
  · intro spelled
    cases spelled with
    | @intro _ _ _ _ a b c d first second third fourth =>
        rw [Text.hexValue?_eq_some_iff] at first second third fourth
        exact ⟨rfl, [a, b, c, d], .cons first (.cons second (.cons third (.cons fourth .nil))),
          (ofDigits_four a b c d).symm⟩
  · rintro ⟨four, worths, places, rfl⟩
    obtain ⟨a, b, c, d, rfl⟩ := List.length_eq_four.mp (places.length_eq.symm.trans four)
    simp only [List.forall₂_cons_right_iff, List.forall₂_nil_right_iff] at places
    obtain ⟨_, _, first, ⟨_, _, second, ⟨_, _, third, ⟨_, _, fourth, rfl, rfl⟩, rfl⟩, rfl⟩, rfl⟩ :=
      places
    rw [← Text.hexValue?_eq_some_iff] at first second third fourth
    have spelled := CodeUnit.intro first second third fourth
    rw [← ofDigits_four] at spelled
    exact spelled

namespace CodeUnit

variable {digits : List Char} {unit : Nat}

theorem length_eq (spelled : CodeUnit digits unit) : digits.length = 4 := by
  cases spelled with
  | intro => rfl

theorem lt (spelled : CodeUnit digits unit) : unit < 0x10000 := by
  cases spelled with
  | intro first second third fourth =>
      have := (Text.hexValue?_eq_some_iff.mp first).lt
      have := (Text.hexValue?_eq_some_iff.mp second).lt
      have := (Text.hexValue?_eq_some_iff.mp third).lt
      have := (Text.hexValue?_eq_some_iff.mp fourth).lt
      omega

theorem unique {other : Nat} (spelled : CodeUnit digits unit)
    (spelledOther : CodeUnit digits other) : unit = other := by
  cases spelled with
  | intro first second third fourth =>
      cases spelledOther with
      | intro otherFirst otherSecond otherThird otherFourth =>
          obtain rfl := Option.some.inj (first.symm.trans otherFirst)
          obtain rfl := Option.some.inj (second.symm.trans otherSecond)
          obtain rfl := Option.some.inj (third.symm.trans otherThird)
          obtain rfl := Option.some.inj (fourth.symm.trans otherFourth)
          rfl

/-- Two code units at one place are the same. -/
theorem append_inj {behind otherDigits otherBehind : List Char} {other : Nat}
    (spelled : CodeUnit digits unit) (spelledOther : CodeUnit otherDigits other)
    (same : digits ++ behind = otherDigits ++ otherBehind) :
    unit = other ∧ behind = otherBehind := by
  obtain ⟨rfl, rfl⟩ :=
    List.append_inj same (spelled.length_eq.trans spelledOther.length_eq.symm)
  exact ⟨spelled.unique spelledOther, rfl⟩

/-- What is no hexadecimal digit is not in a code unit. -/
theorem ne_of_mem (spelled : CodeUnit digits unit) {character other : Char}
    (member : character ∈ digits) (noDigit : Text.hexValue? other = none) : character ≠ other := by
  rintro rfl
  cases spelled with
  | intro first second third fourth =>
      simp only [List.mem_cons, List.not_mem_nil, or_false] at member
      rcases member with rfl | rfl | rfl | rfl
      · exact absurd noDigit (by simp [first])
      · exact absurd noDigit (by simp [second])
      · exact absurd noDigit (by simp [third])
      · exact absurd noDigit (by simp [fourth])

end CodeUnit

/-- Four digits written for a number spell it. -/
theorem codeUnit_fourHexDigits {number : Nat} (small : number < 0x10000) :
    CodeUnit (Text.fourHexDigits number) number := by
  have digits (value : Nat) : Text.hexValue? (Text.hexDigit (value % 16)) = some (value % 16) :=
    Text.hexValue?_hexDigit _ (Nat.mod_lt _ (by decide))
  have spelled := CodeUnit.intro (digits (number / 4096)) (digits (number / 256))
    (digits (number / 16)) (digits number)
  have total : 4096 * (number / 4096 % 16) + 256 * (number / 256 % 16) +
      16 * (number / 16 % 16) + number % 16 = number := by omega
  rw [total] at spelled
  exact spelled

/-- Every number of sixteen bits is spelled by four digits, and no greater one. -/
theorem exists_codeUnit_iff {unit : Nat} : (∃ digits, CodeUnit digits unit) ↔ unit < 0x10000 :=
  ⟨fun ⟨_, spelled⟩ => spelled.lt, fun small => ⟨_, codeUnit_fourHexDigits small⟩⟩

/-! ## Escapes -/

theorem shortEscape?_eq_some_iff {mark character : Char} :
    shortEscape? mark = some character ↔ ShortEscape mark character := by
  constructor
  · intro found
    unfold shortEscape? at found
    split at found <;> cases found <;> constructor
  · intro escape
    cases escape <;> rfl

theorem reads_hexDigit :
    hexDigit.Reads fun passed value _ =>
      ∃ digit, passed = [digit] ∧ Text.hexValue? digit = some value := by
  refine ((reads_satisfy _).filterMap Text.hexValue?).congr fun passed value rest => ?_
  simp

/-- Digits are read from the leading one on. -/
theorem ofHexDigits_eq_ofDigits (digits : List Nat) :
    Text.ofHexDigits digits = Nat.ofDigits 16 digits.reverse := by
  rw [Text.ofHexDigits, List.foldl_eq_foldr_reverse, Nat.ofDigits_eq_foldr]
  congr 1
  funext digit number
  exact Nat.add_comm _ _

theorem ofHexDigits_eq (a b c d : Nat) :
    Text.ofHexDigits [a, b, c, d] = 4096 * a + 256 * b + 16 * c + d :=
  (ofHexDigits_eq_ofDigits _).trans (ofDigits_four a b c d)

theorem reads_codeUnit :
    codeUnit.Reads fun passed unit _ =>
      ∃ digits, passed = 'u' :: digits ∧ CodeUnit digits unit := by
  refine ((Reads.seqRight (skips_char 'u') (reads_count reads_hexDigit 4)).functorMap
    Text.ofHexDigits).congr fun passed unit rest => ?_
  constructor
  · rintro ⟨values, ⟨_, digits, rfl, rfl, strung, four⟩, rfl⟩
    obtain ⟨a, b, c, d, rfl⟩ := List.length_eq_four.mp four
    simp only [strung_cons, strung_nil] at strung
    obtain ⟨_, _, rfl, ⟨first, rfl, isFirst⟩, _, _, rfl, ⟨second, rfl, isSecond⟩, _, _, rfl,
      ⟨third, rfl, isThird⟩, _, _, rfl, ⟨fourth, rfl, isFourth⟩, rfl⟩ := strung
    rw [ofHexDigits_eq]
    exact ⟨_, rfl, .intro isFirst isSecond isThird isFourth⟩
  · rintro ⟨_, rfl, digits⟩
    cases digits with
    | @intro first second third fourth a b c d isFirst isSecond isThird isFourth =>
        refine ⟨[a, b, c, d], ⟨['u'], _, rfl, rfl, ?_, rfl⟩, (ofHexDigits_eq a b c d).symm⟩
        simp only [strung_cons, strung_nil]
        exact ⟨[first], _, rfl, ⟨first, rfl, isFirst⟩, [second], _, rfl, ⟨second, rfl, isSecond⟩,
          [third], _, rfl, ⟨third, rfl, isThird⟩, [fourth], [], rfl, ⟨fourth, rfl, isFourth⟩, rfl⟩

/-- What completes a code unit: nothing, or the second half of a pair. -/
def completion (unit : Nat) : Parser Char :=
  if Text.isHighSurrogate unit then
    (char '\\' *> codeUnit).filterMap (Text.combine? unit)
  else
    match Text.scalar? unit with
    | some character => pure character
    | none => fail

theorem unicodeEscape_eq : unicodeEscape = codeUnit.andThen completion := rfl

theorem reads_secondHalf (high : Nat) :
    ((char '\\' *> codeUnit).filterMap (Text.combine? high)).Reads fun passed character _ =>
      ∃ low digits, CodeUnit digits low ∧ passed = '\\' :: 'u' :: digits ∧
        Text.combine? high low = some character := by
  refine ((Reads.seqRight (skips_char '\\') reads_codeUnit).filterMap _).congr
    fun passed character rest => ?_
  constructor
  · rintro ⟨low, ⟨_, _, rfl, rfl, digits, rfl, spelled⟩, combined⟩
    exact ⟨low, digits, spelled, rfl, combined⟩
  · rintro ⟨low, digits, spelled, rfl, combined⟩
    exact ⟨low, ⟨['\\'], 'u' :: digits, rfl, rfl, digits, rfl, spelled⟩, combined⟩

/-- A code unit is completed by nothing if it is a character, and by a second half if it is a first
one. -/
theorem reads_completion (unit : Nat) :
    (completion unit).Reads fun passed character _ =>
      (passed = [] ∧ character.toNat = unit) ∨ ∃ low digits, CodeUnit digits low ∧
        passed = '\\' :: 'u' :: digits ∧ Text.combine? unit low = some character := by
  unfold completion
  split
  · next high =>
      refine (reads_secondHalf unit).congr fun passed character rest => ?_
      simp only [Text.isHighSurrogate, Bool.and_eq_true, decide_eq_true_eq] at high
      have other : character.toNat ≠ unit := by
        have := Text.toNat_not_surrogate character
        omega
      simp [other]
  · next low =>
      have noPair (second : Nat) (character : Char) :
          Text.combine? unit second ≠ some character := by
        simp [Text.combine?, low]
      simp only [noPair, and_false, exists_const, or_false]
      split
      · next found scalar =>
          refine (reads_pure found).congr fun passed character rest => ?_
          rw [← Text.scalar?_eq_some_iff, scalar, Option.some.injEq, @eq_comm _ found]
      · next missing =>
          refine reads_fail.congr fun passed character rest => ?_
          rw [← Text.scalar?_eq_some_iff, missing]
          simp

/-- What may stand behind the backslash of an escape that names code units. -/
theorem reads_unicodeEscape :
    unicodeEscape.Reads fun passed character _ =>
      (∃ digits, passed = 'u' :: digits ∧ CodeUnit digits character.toNat) ∨
        ∃ highDigits lowDigits high low, CodeUnit highDigits high ∧ CodeUnit lowDigits low ∧
          passed = 'u' :: (highDigits ++ '\\' :: 'u' :: lowDigits) ∧
          Text.combine? high low = some character := by
  rw [unicodeEscape_eq]
  refine (reads_codeUnit.andThen reads_completion).congr fun passed character rest => ?_
  constructor
  · rintro ⟨_, _, unit, rfl, ⟨digits, rfl, spelled⟩, ⟨rfl, rfl⟩ | ⟨low, lowDigits, spelledLow, rfl,
      combined⟩⟩
    · exact .inl ⟨digits, by simp, spelled⟩
    · exact .inr ⟨digits, lowDigits, unit, low, spelled, spelledLow, rfl, combined⟩
  · rintro (⟨digits, rfl, spelled⟩ | ⟨highDigits, lowDigits, high, low, spelled, spelledLow, rfl,
      combined⟩)
    · exact ⟨'u' :: digits, [], _, by simp, ⟨digits, rfl, spelled⟩, .inl ⟨rfl, rfl⟩⟩
    · exact ⟨'u' :: highDigits, _, high, rfl, ⟨highDigits, rfl, spelled⟩,
        .inr ⟨low, lowDigits, spelledLow, rfl, combined⟩⟩

/-! ## Items -/

theorem reads_shortEscape :
    ((satisfy fun _ => true).filterMap shortEscape?).Reads fun passed character _ =>
      ∃ mark, passed = [mark] ∧ ShortEscape mark character := by
  refine ((reads_satisfy _).filterMap shortEscape?).congr fun passed character rest => ?_
  simp [shortEscape?_eq_some_iff]

/-- A short escape is not mistaken for the beginning of a code unit. -/
theorem shortEscape_excludes_unicodeEscape :
    ((satisfy fun _ => true).filterMap shortEscape?).Excludes unicodeEscape := by
  have short : ((satisfy fun _ => true).filterMap shortEscape?).StartsWith (· ≠ 'u') := by
    refine reads_shortEscape.startsWith _ ?_
    rintro _ character rest ⟨mark, rfl, escape⟩
    refine ⟨mark, rfl, ?_⟩
    rintro rfl
    cases escape
  have unicode : unicodeEscape.StartsWith (· = 'u') := by
    refine reads_unicodeEscape.startsWith _ ?_
    rintro _ character rest (⟨_, rfl, -⟩ | ⟨_, _, _, _, -, -, rfl, -⟩)
    · exact ⟨'u', rfl, rfl⟩
    · exact ⟨'u', rfl, rfl⟩
  exact short.excludes unicode fun character different same => different same

theorem le_char_iff {character : Char} : ' ' ≤ character ↔ 0x20 ≤ character.toNat := Iff.rfl

theorem reads_escapedCharacter :
    escapedCharacter.Reads fun passed character _ => Item .json passed character := by
  have plain := reads_satisfy fun character =>
    character != '"' && character != '\\' && decide (' ' ≤ character)
  have escaped := Reads.seqRight (skips_char '\\')
    (reads_shortEscape.or reads_unicodeEscape shortEscape_excludes_unicodeEscape)
  have plainStarts := plain.startsWith (· ≠ '\\') (by
    rintro _ character _ ⟨rfl, accepted⟩
    refine ⟨character, rfl, ?_⟩
    rintro rfl
    exact absurd accepted (by decide))
  have escapedStarts := escaped.startsWith (· = '\\') (by
    rintro _ character _ ⟨_, back, rfl, rfl, -⟩
    exact ⟨'\\', rfl, rfl⟩)
  refine (plain.or escaped (plainStarts.excludes escapedStarts fun _ different same =>
    different same)).congr fun passed character rest => ?_
  simp only [Bool.and_eq_true, bne_iff_ne, decide_eq_true_eq, le_char_iff]
  constructor
  · rintro (⟨rfl, ⟨noQuote, noBackslash⟩, printable⟩ | ⟨_, _, rfl, rfl, escape⟩)
    · exact .plain noQuote noBackslash printable
    · rcases escape with ⟨mark, rfl, short⟩ | ⟨digits, rfl, spelled⟩ | ⟨highDigits, lowDigits,
        high, low, spelledHigh, spelledLow, rfl, combined⟩
      · exact .short short
      · exact .unit spelled
      · obtain ⟨⟨highFrom, highTo⟩, ⟨lowFrom, lowTo⟩, code⟩ := Text.combine?_eq_some_iff.mp combined
        exact .pair spelledHigh highFrom highTo spelledLow lowFrom lowTo code
  · intro item
    cases item with
    | plain noQuote noBackslash printable =>
        exact .inl ⟨rfl, ⟨noQuote, noBackslash⟩, printable⟩
    | short short => exact .inr ⟨['\\'], _, rfl, rfl, .inl ⟨_, rfl, short⟩⟩
    | unit spelled => exact .inr ⟨['\\'], _, rfl, rfl, .inr (.inl ⟨_, rfl, spelled⟩)⟩
    | pair spelledHigh highFrom highTo spelledLow lowFrom lowTo code =>
        have combined := Text.combine?_eq_some_iff.mpr ⟨⟨highFrom, highTo⟩, ⟨lowFrom, lowTo⟩, code⟩
        exact .inr ⟨['\\'], _, rfl, rfl,
          .inr (.inr ⟨_, _, _, _, spelledHigh, spelledLow, rfl, combined⟩)⟩

theorem reads_stringCharacter (mode : EscapeMode) :
    (stringCharacter mode).Reads fun passed character _ => Item mode passed character := by
  cases mode with
  | json => exact reads_escapedCharacter
  | literal =>
      refine (reads_satisfy (· != '"')).congr fun passed character rest => ?_
      rw [bne_iff_ne]
      constructor
      · rintro ⟨rfl, different⟩
        exact .literal different
      · rintro ⟨different⟩
        exact ⟨rfl, different⟩

/-- An item begins with a character that is no quote. -/
theorem Item.exists_cons {mode : EscapeMode} {text : List Char} {character : Char}
    (item : Item mode text character) : ∃ first rest, text = first :: rest ∧ first ≠ '"' := by
  cases item with
  | literal different => exact ⟨_, [], rfl, different⟩
  | plain different => exact ⟨_, [], rfl, different⟩
  | short => exact ⟨'\\', _, rfl, by decide⟩
  | unit => exact ⟨'\\', _, rfl, by decide⟩
  | pair => exact ⟨'\\', _, rfl, by decide⟩

/-! ## Strings -/

theorem reads_string (mode : EscapeMode) :
    (string mode).Reads fun passed text _ => Quotation mode passed text := by
  have filled (passed : List Char) (character : Char) (item : Item mode passed character) :
      passed ≠ [] := by
    obtain ⟨first, rest, rfl, -⟩ := item.exists_cons
    exact List.cons_ne_nil _ _
  have body := reads_many (reads_stringCharacter mode) filled
  refine (((Reads.seqRight (skips_char '"') body).seqLeft (skips_char '"')).functorMap
    String.ofList).congr fun passed text rest => ?_
  constructor
  · rintro ⟨characters, ⟨_, _, rfl, ⟨_, body, rfl, rfl, strung, -⟩, rfl⟩, rfl⟩
    exact .intro strung
  · intro quotation
    cases quotation with
    | @intro body characters strung =>
        refine ⟨characters, ⟨'"' :: body, ['"'], rfl, ⟨['"'], body, rfl, rfl, strung, ?_⟩, rfl⟩,
          rfl⟩
        -- No item begins with the quote that ends the string.
        rintro front character back split item
        obtain ⟨first, others, rfl, different⟩ := item.exists_cons
        exact different (List.cons.inj split).1.symm

end TextGrammar.Json
