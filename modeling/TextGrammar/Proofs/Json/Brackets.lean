import TextGrammar.Proofs.Json.Derivation

/-!
# Brackets in a text

The number of brackets that are open at once can be told from a text by going through it once.  All
that has to be known is whether the scan is in a string, where brackets stand for themselves, and
with escapes whether a backslash takes the quote behind it for the string.

A text that closes what it opens raises the number of open brackets by its own height wherever it
stands (`Rises`).  Heights are put together as texts are.
-/

namespace TextGrammar.Json

open TextGrammar.Parser TextGrammar.Decimal

/-- Whether a character is an opening bracket. -/
def opens (character : Char) : Bool :=
  character == '[' || character == '\x7b'

/-- Whether a character is a closing bracket. -/
def closes (character : Char) : Bool :=
  character == ']' || character == '\x7d'

/-- Whether a character outside strings has a say in which brackets are open. -/
def marksBracket (character : Char) : Bool :=
  character == '"' || opens character || closes character

/-! ## Going through a text -/

/-- Where in a text a scan stands. -/
inductive Place where
  /-- Between strings. -/
  | outside
  /-- In a string. -/
  | inside
  /-- In a string, behind a backslash that belongs to the next character. -/
  | escaped
  deriving DecidableEq

/-- What a scan knows of the text that it has passed. -/
structure Scan where
  place : Place := .outside
  /-- The number of brackets that are open. -/
  opened : Nat := 0
  /-- The largest number of brackets that were open at once. -/
  most : Nat := 0
  deriving DecidableEq

namespace Scan

/-- Pass one character. -/
def step (mode : EscapeMode) (scan : Scan) (character : Char) : Scan :=
  match scan.place with
  | .outside =>
      if character = '"' then { scan with place := .inside }
      else if opens character then
        { scan with opened := scan.opened + 1, most := max scan.most (scan.opened + 1) }
      else if closes character then { scan with opened := scan.opened - 1 }
      else scan
  | .inside =>
      if character = '"' then { scan with place := .outside }
      else if character = '\\' ∧ mode = .json then { scan with place := .escaped }
      else scan
  | .escaped => { scan with place := .inside }

/-- Pass a text. -/
def pass (mode : EscapeMode) (scan : Scan) (text : List Char) : Scan :=
  text.foldl (step mode) scan

variable {mode : EscapeMode} {scan : Scan}

@[simp] theorem pass_nil : scan.pass mode [] = scan := rfl

@[simp] theorem pass_cons (character : Char) (text : List Char) :
    scan.pass mode (character :: text) = (scan.step mode character).pass mode text := rfl

@[simp] theorem pass_append (front back : List Char) :
    scan.pass mode (front ++ back) = (scan.pass mode front).pass mode back :=
  List.foldl_append

/-- One character opens one bracket at the most, and only if it is an opening bracket. -/
theorem step_le (mode : EscapeMode) (scan : Scan) (character : Char) :
    (scan.step mode character).opened ≤ scan.opened + (if opens character then 1 else 0) ∧
      (scan.step mode character).most ≤
        max scan.most (scan.opened + (if opens character then 1 else 0)) := by
  unfold step
  cases scan.place with
  | outside => grind
  | inside => grind
  | escaped => grind

/-- No more brackets are open at once than opening brackets have been passed. -/
theorem most_pass_le (mode : EscapeMode) (scan : Scan) (text : List Char) :
    (scan.pass mode text).most ≤ max scan.most (scan.opened + text.countP opens) := by
  induction text generalizing scan with
  | nil => exact Nat.le_max_left _ _
  | cons character text ih =>
      obtain ⟨openedStep, mostStep⟩ := step_le mode scan character
      have mostRest := ih (scan.step mode character)
      rw [pass_cons, List.countP_cons]
      omega

end Scan

/-- The largest number of brackets that are open at once in a text, outside its strings. -/
def mostOpen (mode : EscapeMode) (text : List Char) : Nat :=
  (Scan.pass mode {} text).most

theorem mostOpen_le_countP (mode : EscapeMode) (text : List Char) :
    mostOpen mode text ≤ text.countP opens := by
  simpa [mostOpen] using Scan.most_pass_le mode {} text

/-- Brackets in strings do not count, and where a string ends depends on the escapes. -/
example : mostOpen .json "\x7b\"]\\\"[\": [[]], \"\": []\x7d".toList = 3 := by decide

example : mostOpen .literal "[\"\\\", [\"[\"]]".toList = 2 := by decide

/-! ## Texts that close what they open -/

/-- Outside strings `text` is passed from any place to outside strings.  It closes what it opens,
and meanwhile opens as many brackets as `height` says on top of those that are open. -/
def Rises (mode : EscapeMode) (text : List Char) (height : Nat) : Prop :=
  ∀ opened most, opened ≤ most →
    Scan.pass mode ⟨.outside, opened, most⟩ text = ⟨.outside, opened, max most (opened + height)⟩

section Rises

variable {mode : EscapeMode} {text : List Char} {height : Nat}

theorem Rises.mostOpen_eq (rises : Rises mode text height) : mostOpen mode text = height := by
  rw [mostOpen, rises 0 0 (Nat.le_refl 0)]
  simp

/-- Each part of a text rises from the ground. -/
theorem Rises.append {behind : List Char} {heightBehind : Nat} (rises : Rises mode text height)
    (risesBehind : Rises mode behind heightBehind) :
    Rises mode (text ++ behind) (max height heightBehind) := by
  intro opened most below
  rw [Scan.pass_append, rises opened most below, risesBehind opened _ (by omega), Scan.mk.injEq]
  exact ⟨rfl, rfl, by omega⟩

/-- Brackets around a text raise it by one. -/
theorem Rises.bracketed {opening closing : Char} (rises : Rises mode text height)
    (isOpening : opens opening = true) (isClosing : closes closing = true) :
    Rises mode (opening :: (text ++ [closing])) (height + 1) := by
  intro opened most below
  have quoteOpening : opening ≠ '"' := ne_of_accepts isOpening rfl
  have quoteClosing : closing ≠ '"' := ne_of_accepts isClosing rfl
  have noOpening : opens closing = false := by
    simp only [closes, Bool.or_eq_true, beq_iff_eq] at isClosing
    rcases isClosing with rfl | rfl <;> rfl
  have raised : Scan.step mode ⟨.outside, opened, most⟩ opening =
      ⟨.outside, opened + 1, max most (opened + 1)⟩ := by
    simp [Scan.step, quoteOpening, isOpening]
  have lowered (most : Nat) : Scan.step mode ⟨.outside, opened + 1, most⟩ closing =
      ⟨.outside, opened, most⟩ := by
    simp [Scan.step, quoteClosing, noOpening, isClosing]
  rw [Scan.pass_cons, raised, Scan.pass_append, rises _ _ (by omega), Scan.pass_cons, lowered,
    Scan.pass_nil, Scan.mk.injEq]
  exact ⟨rfl, rfl, by omega⟩

/-- A text without quotes and brackets stays on the ground. -/
theorem rises_of_not_marksBracket
    (plain : ∀ character ∈ text, marksBracket character = false) : Rises mode text 0 := by
  intro opened most below
  rw [Nat.add_zero, Nat.max_eq_left below]
  induction text with
  | nil => rfl
  | cons character text ih =>
      obtain ⟨plainCharacter, plainText⟩ := List.forall_mem_cons.mp plain
      simp only [marksBracket, Bool.or_eq_false_iff, beq_eq_false_iff_ne] at plainCharacter
      have stays : Scan.step mode ⟨.outside, opened, most⟩ character =
          ⟨.outside, opened, most⟩ := by
        simp [Scan.step, plainCharacter]
      rw [Scan.pass_cons, stays, ih plainText]

/-- The same as a test, which can be run. -/
theorem rises_of_any_marksBracket (plain : text.any marksBracket = false) : Rises mode text 0 := by
  apply rises_of_not_marksBracket
  intro character member
  exact Bool.eq_false_iff.mpr (List.any_eq_false.mp plain character member)

theorem rises_nil : Rises mode [] 0 :=
  rises_of_any_marksBracket rfl

theorem foldr_max_le_iff {numbers : List Nat} {limit : Nat} :
    numbers.foldr max 0 ≤ limit ↔ ∀ number ∈ numbers, number ≤ limit := by
  induction numbers with
  | nil => simp
  | cons number numbers ih => rw [List.foldr_cons, Nat.max_le, ih, List.forall_mem_cons]

/-- Texts with commas between them rise as high as the highest of them. -/
theorem rises_intercalate {ι : Type} {parts : List ι} {text : ι → List Char} {height : ι → Nat}
    (rises : ∀ part ∈ parts, Rises mode (text part) (height part)) :
    Rises mode ([','].intercalate (parts.map text)) ((parts.map height).foldr max 0) := by
  have comma : Rises mode [','] 0 := rises_of_any_marksBracket rfl
  cases parts with
  | nil => exact rises_nil
  | cons first others =>
      obtain ⟨risesFirst, risesOthers⟩ := List.forall_mem_cons.mp rises
      rw [List.map_cons, intercalate_cons]
      refine risesFirst.append ?_
      clear rises risesFirst
      induction others with
      | nil => exact rises_nil
      | cons next others ih =>
          obtain ⟨risesNext, risesRest⟩ := List.forall_mem_cons.mp risesOthers
          simpa using (comma.append risesNext).append (ih risesRest)

end Rises

/-! ## Tokens -/

variable {options : Options} {mode : EscapeMode} {text : List Char}

/-- Quotes and brackets are no white space. -/
theorem not_marksBracket_of_isBlank {character : Char} (blank : options.isBlank character = true) :
    marksBracket character = false := by
  cases marks : marksBracket character with
  | false => rfl
  | true =>
      have black : Text.isWhiteSpace character = false := by
        simp only [marksBracket, opens, closes, Bool.or_eq_true, beq_iff_eq] at marks
        rcases marks with (rfl | rfl | rfl) | rfl | rfl <;> decide
      rw [not_isBlank_of_not_isWhiteSpace black] at blank
      exact Bool.noConfusion blank

theorem rises_blanks (blank : Blanks options text) : Rises mode text 0 :=
  rises_of_not_marksBracket fun character member =>
    not_marksBracket_of_isBlank (blank character member)

theorem not_marksBracket_of_isDigit {character : Char} (digit : character.isDigit = true) :
    marksBracket character = false := by
  have different {other : Char} (noDigit : other.isDigit = false) : character ≠ other :=
    ne_of_isDigit digit other noDigit
  simp [marksBracket, opens, closes, different]

theorem rises_numeral {decimal : Decimal} (numeral : Numeral text decimal) :
    Rises mode text 0 := by
  have marks : ∀ mark ∈ ['+', '-', '.', 'e', 'E'], marksBracket mark = false := by
    simp [marksBracket, opens, closes]
  apply rises_of_not_marksBracket
  intro character member
  cases numeral.isDigit_or_mem_marks character member with
  | inl digit => exact not_marksBracket_of_isDigit digit
  | inr mark => exact marks character mark

namespace Scan

variable {opened most : Nat}

/-- What is neither a quote nor a backslash leaves a scan in the string where it is. -/
theorem pass_inside (plain : ∀ character ∈ text, character ≠ '"' ∧ character ≠ '\\') :
    Scan.pass mode ⟨.inside, opened, most⟩ text = ⟨.inside, opened, most⟩ := by
  induction text with
  | nil => rfl
  | cons character text ih =>
      obtain ⟨⟨noQuote, noBackslash⟩, plainText⟩ := List.forall_mem_cons.mp plain
      have stays : step mode ⟨.inside, opened, most⟩ character = ⟨.inside, opened, most⟩ := by
        simp [step, noQuote, noBackslash]
      rw [pass_cons, stays, ih plainText]

/-- A backslash that begins an escape takes the next character with it. -/
theorem pass_escape (mark : Char) (text : List Char) :
    Scan.pass .json ⟨.inside, opened, most⟩ ('\\' :: mark :: text) =
      Scan.pass .json ⟨.inside, opened, most⟩ text := by
  simp [step]

/-- No item of a string ends it. -/
theorem pass_item {character : Char} (item : Item mode text character) :
    Scan.pass mode ⟨.inside, opened, most⟩ text = ⟨.inside, opened, most⟩ := by
  have digits {run : List Char} {unit : Nat} (spelled : CodeUnit run unit) :
      ∀ character ∈ run, character ≠ '"' ∧ character ≠ '\\' := fun _ member =>
    ⟨spelled.ne_of_mem member rfl, spelled.ne_of_mem member rfl⟩
  cases item with
  | literal noQuote => simp [step, noQuote]
  | plain noQuote noBackslash _ => simp [step, noQuote, noBackslash]
  | short _ => rw [pass_escape, pass_nil]
  | unit spelled => rw [pass_escape, pass_inside (digits spelled)]
  | pair spelledHigh _ _ spelledLow _ _ _ =>
      rw [pass_escape, pass_append, pass_inside (digits spelledHigh), pass_escape,
        pass_inside (digits spelledLow)]

end Scan

/-- A string is passed up to its closing quote, whatever brackets are in it. -/
theorem rises_quotation {content : String} (quotation : Quotation mode text content) :
    Rises mode text 0 := by
  intro opened most below
  rw [Nat.add_zero, Nat.max_eq_left below]
  cases quotation with
  | @intro body _ items =>
      have within : Scan.pass mode ⟨.inside, opened, most⟩ body = ⟨.inside, opened, most⟩ := by
        induction items with
        | nil => rfl
        | cons item _ ih => rw [Scan.pass_append, Scan.pass_item item, ih]
      have quote : Scan.step mode ⟨.outside, opened, most⟩ '"' = ⟨.inside, opened, most⟩ := rfl
      rw [Scan.pass_cons, quote, Scan.pass_append, within]
      rfl

end TextGrammar.Json
