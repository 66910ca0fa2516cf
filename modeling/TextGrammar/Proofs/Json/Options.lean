import TextGrammar.Proofs.Json.Exactness
import TextGrammar.Proofs.Json.Inclusion

/-!
# What the options change

With all white space as blanks, what was read before is read as the same value, and only the white
space behind it is passed in addition.  Where there is no backslash, what is read with escapes is
read without them as the same value; and where there is no control character either, the two modes
do not differ at all, not even in what they refuse.
-/

namespace TextGrammar.Json

open TextGrammar.Decimal TextGrammar.Parser

variable {Only : Char → Prop} {narrow wide options : Options} {depth : Nat}
variable {passed rest : List Char} {value : Value}

/-! ## From one grammar to a wider one -/

/-- What is read in one grammar is read in a wider one, with the further blanks behind it. -/
theorem ElementBefore.transfer (within : narrow.Within Only wide)
    (only : ∀ character ∈ passed, Only character)
    (before : ElementBefore narrow depth passed value rest) :
    ElementBefore wide depth (passed ++ rest.takeWhile wide.isBlank) value
      (rest.dropWhile wide.isBlank) := by
  obtain ⟨front, text, back, rfl, blank, ⟨bare, unprolonged⟩, blankAfter, -⟩ := before
  simp only [List.forall_mem_append] at only
  have further : Blanks wide (rest.takeWhile wide.isBlank) :=
    fun character member => List.all_eq_true.mp List.all_takeWhile character member
  refine ⟨front, text, back ++ rest.takeWhile wide.isBlank, by simp, blank.transfer within,
    ⟨bare.transfer within (Nat.le_refl depth) only.2.1, ?_⟩,
    (blankAfter.transfer within).append further, clearOf_dropWhile rest⟩
  rwa [List.append_assoc, List.takeWhile_append_dropWhile]

namespace Reader

variable {text behind : String} {reader wider : Reader}

theorem parseValue_transfer (within : reader.options.Within Only wider.options)
    (enough : reader.options.maxDepth = wider.options.maxDepth)
    (only : ∀ character ∈ text.toList, Only character)
    (found : reader.parseValue text = some (value, behind)) :
    wider.parseValue text =
      some (value, .ofList (behind.toList.dropWhile wider.options.isBlank)) := by
  obtain ⟨passed, split, before⟩ := reader.parseValue_eq_some_iff.mp found
  rw [split, List.forall_mem_append] at only
  have beforeWider := before.transfer within only.1
  rw [enough] at beforeWider
  refine wider.parseValue_eq_some_iff.mpr ⟨_, ?_, by rwa [String.toList_ofList]⟩
  rw [split, String.toList_ofList, List.append_assoc, List.takeWhile_append_dropWhile]

/-- Where the blanks are the same no further ones are passed. -/
theorem parseValue_transfer_of_isBlank_eq (within : reader.options.Within Only wider.options)
    (enough : reader.options.maxDepth = wider.options.maxDepth)
    (same : wider.options.isBlank = reader.options.isBlank)
    (only : ∀ character ∈ text.toList, Only character)
    (found : reader.parseValue text = some (value, behind)) :
    wider.parseValue text = some (value, behind) := by
  obtain ⟨_, _, before⟩ := reader.parseValue_eq_some_iff.mp found
  have nothing : behind.toList.dropWhile wider.options.isBlank = behind.toList := by
    rw [same]
    exact dropWhile_append_clearOf (blanks_nil : Blanks reader.options []) before.clear
  rw [parseValue_transfer within enough only found, nothing, String.ofList_toList]

end Reader

/-! ## More white space -/

/-- All white space is blank if that of Unicode is. -/
theorem Options.isBlank_of_unicodeBlanks (unicode : options.unicodeBlanks = true) :
    options.isBlank = Text.isWhiteSpace := by
  funext character
  cases white : Text.isWhiteSpace character with
  | true => simp [isBlank, unicode, white]
  | false => exact not_isBlank_of_not_isWhiteSpace white options

/-- The same options but for what counts as a blank. -/
def Options.withUnicodeBlanks (options : Options) (allowed : Bool) : Options :=
  { options with unicodeBlanks := allowed }

theorem Options.within_withUnicodeBlanks (options : Options) :
    (options.withUnicodeBlanks false).Within (fun _ => True) (options.withUnicodeBlanks true) where
  isBlank character blank := by
    simp only [isBlank, withUnicodeBlanks, Bool.false_and, Bool.or_false] at blank
    simp [isBlank, withUnicodeBlanks, blank]
  quotation _ _ _ quotation := quotation

namespace Reader

/-- The same grammar but for what counts as a blank. -/
def withUnicodeBlanks (reader : Reader) (allowed : Bool) : Reader :=
  ⟨reader.options.withUnicodeBlanks allowed⟩

/-- What is found with four blanks only is found, and is the same value, with all white space as
blanks.  The white space behind it is then passed too. -/
theorem parseValue_withUnicodeBlanks (reader : Reader) (text : String) :
    (∀ value rest, (reader.withUnicodeBlanks false).parseValue text = some (value, rest) →
      (reader.withUnicodeBlanks true).parseValue text =
        some (value, .ofList (rest.toList.dropWhile Text.isWhiteSpace))) ∧
    ∀ value, (reader.withUnicodeBlanks false).parseDocument text = .ok value →
      (reader.withUnicodeBlanks true).parseDocument text = .ok value := by
  have onward : ∀ value rest, (reader.withUnicodeBlanks false).parseValue text =
      some (value, rest) → (reader.withUnicodeBlanks true).parseValue text =
        some (value, .ofList (rest.toList.dropWhile Text.isWhiteSpace)) := by
    intro value rest found
    have wider : (reader.withUnicodeBlanks true).parseValue text = _ :=
      parseValue_transfer reader.options.within_withUnicodeBlanks rfl (fun _ _ => trivial) found
    rwa [Options.isBlank_of_unicodeBlanks rfl] at wider
  refine ⟨onward, fun value read => ?_⟩
  rw [parseDocument_eq_ok_iff_parseValue] at read ⊢
  exact onward value "" read

/-- An array in front of an ideographic space, and one amid line feeds as a document. -/
theorem parseValue_withUnicodeBlanks_ideographicSpace :
    (withUnicodeBlanks {} false).parseValue "[] \u3000x" = some (.array [], "\u3000x") ∧
      (withUnicodeBlanks {} true).parseValue "[] \u3000x" = some (.array [], "x") ∧
      (withUnicodeBlanks {} true).parseDocument "\n[]\n" = .ok (.array []) := by
  have array : Bare ({} : Options) 64 "[]".toList (.array []) := .emptyArray blanks_nil
  have found : (withUnicodeBlanks {} false).parseValue "[] \u3000x" =
      some (.array [], "\u3000x") :=
    (parseValue_eq_some_iff _).mpr ⟨"[] ".toList, rfl, [], "[]".toList, [' '], rfl, blanks_nil,
      ⟨array, fun _ same => Value.noConfusion same⟩, blanks_singleton.mpr rfl, clearOf_cons.mpr rfl⟩
  have lineFeed : Blanks ({} : Options) ['\n'] := blanks_singleton.mpr rfl
  have read : (withUnicodeBlanks {} false).parseDocument "\n[]\n" = .ok (.array []) :=
    (parseDocument_eq_ok_iff_parseValue _).mpr
      ((parseValue_eq_some_empty_iff _).mpr (.intro lineFeed array lineFeed))
  exact ⟨found, (parseValue_withUnicodeBlanks {} _).1 _ _ found,
    (parseValue_withUnicodeBlanks {} _).2 _ read⟩

end Reader

/-! ## Texts without escapes -/

/-- The same options but for what a backslash means. -/
def Options.withEscapes (options : Options) (mode : EscapeMode) : Options :=
  { options with escapes := mode }

theorem Item.literal_of_json {piece : List Char} {character : Char}
    (noBackslash : ∀ other ∈ piece, other ≠ '\\') (item : Item .json piece character) :
    Item .literal piece character := by
  cases item with
  | plain noQuote _ _ => exact .literal noQuote
  | short _ => exact absurd rfl (noBackslash '\\' List.mem_cons_self)
  | unit _ => exact absurd rfl (noBackslash '\\' List.mem_cons_self)
  | pair _ _ _ _ _ _ _ => exact absurd rfl (noBackslash '\\' List.mem_cons_self)

theorem Item.json_of_literal {piece : List Char} {character : Char}
    (plain : ∀ other ∈ piece, other ≠ '\\' ∧ 0x20 ≤ other.toNat)
    (item : Item .literal piece character) : Item .json piece character := by
  cases item with
  | literal noQuote =>
      obtain ⟨noBackslash, printable⟩ := plain character List.mem_cons_self
      exact .plain noQuote noBackslash printable

theorem Quotation.imp {mode other : EscapeMode} {name : List Char} {content : String}
    (only : ∀ character ∈ name, Only character)
    (items : ∀ piece character, (∀ inPiece ∈ piece, Only inPiece) → Item mode piece character →
      Item other piece character)
    (quotation : Quotation mode name content) : Quotation other name content := by
  cases quotation with
  | intro strung =>
      rw [List.forall_mem_cons, List.forall_mem_append] at only
      exact .intro (strung.imp only.2.1 items)

theorem Options.within_withEscapes_literal (options : Options) :
    (options.withEscapes .json).Within (· ≠ '\\') (options.withEscapes .literal) where
  isBlank _ blank := blank
  quotation _ _ only quotation :=
    quotation.imp only fun _ _ noBackslash item => item.literal_of_json noBackslash

theorem Options.within_withEscapes_json (options : Options) :
    (options.withEscapes .literal).Within
      (fun character => character ≠ '\\' ∧ 0x20 ≤ character.toNat)
      (options.withEscapes .json) where
  isBlank _ blank := blank
  quotation _ _ only quotation :=
    quotation.imp only fun _ _ plain item => item.json_of_literal plain

namespace Reader

/-- The same grammar but for what a backslash means. -/
def withEscapes (reader : Reader) (mode : EscapeMode) : Reader :=
  ⟨reader.options.withEscapes mode⟩

/-- In a text without a backslash what is found with escapes is found without them.  If there is no
control character in it either, the same is found in both modes, or nothing in both, and as
documents the two modes accept or refuse it alike. -/
theorem parseValue_withEscapes (reader : Reader) {text : String}
    (noBackslash : ∀ character ∈ text.toList, character ≠ '\\') :
    (∀ found, (reader.withEscapes .json).parseValue text = some found →
      (reader.withEscapes .literal).parseValue text = some found) ∧
    ((∀ character ∈ text.toList, 0x20 ≤ character.toNat) →
      (reader.withEscapes .json).parseValue text =
          (reader.withEscapes .literal).parseValue text ∧
        (reader.withEscapes .json).parseDocument text =
          (reader.withEscapes .literal).parseDocument text) := by
  have onward : ∀ found, (reader.withEscapes .json).parseValue text = some found →
      (reader.withEscapes .literal).parseValue text = some found := by
    rintro ⟨value, rest⟩ found
    exact parseValue_transfer_of_isBlank_eq reader.options.within_withEscapes_literal rfl rfl
      noBackslash found
  refine ⟨onward, fun printable => ?_⟩
  have back : ∀ found, (reader.withEscapes .literal).parseValue text = some found →
      (reader.withEscapes .json).parseValue text = some found := by
    rintro ⟨value, rest⟩ found
    exact parseValue_transfer_of_isBlank_eq reader.options.within_withEscapes_json rfl rfl
      (fun character member => ⟨noBackslash character member, printable character member⟩) found
  have same : (reader.withEscapes .json).parseValue text =
      (reader.withEscapes .literal).parseValue text := by
    apply Option.ext
    exact fun found => ⟨onward found, back found⟩
  refine ⟨same, ?_⟩
  rw [parseDocument_eq, parseDocument_eq, same]

/-- A slash needs no escape, and means itself in both modes. -/
theorem parseValue_withEscapes_slash :
    (withEscapes {} .json).parseValue "\"/\" x" = some (.string "/", "x") ∧
      (withEscapes {} .literal).parseValue "\"/\" x" = some (.string "/", "x") ∧
      (withEscapes {} .json).parseDocument "\"/\" x" =
        (withEscapes {} .literal).parseDocument "\"/\" x" := by
  have string : Bare (Options.withEscapes {} .json) 64 "\"/\"".toList (.string "/") :=
    .string (.intro (.cons (.plain (by decide) (by decide) (by decide)) .nil))
  have found : (withEscapes {} .json).parseValue "\"/\" x" = some (.string "/", "x") :=
    (parseValue_eq_some_iff _).mpr ⟨"\"/\" ".toList, rfl, [], "\"/\"".toList, [' '], rfl,
      blanks_nil, ⟨string, nofun⟩, blanks_singleton.mpr rfl, clearOf_cons.mpr rfl⟩
  have noBackslash : ∀ character ∈ "\"/\" x".toList, character ≠ '\\' := by simp
  have printable : ∀ character ∈ "\"/\" x".toList, 0x20 ≤ character.toNat := by simp
  have agree := parseValue_withEscapes {} noBackslash
  exact ⟨found, agree.1 _ found, (agree.2 printable).2⟩

end Reader

end TextGrammar.Json
