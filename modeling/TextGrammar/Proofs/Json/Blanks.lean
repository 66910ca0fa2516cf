import Mathlib.Data.List.DropRight
import TextGrammar.Json.Grammar
import TextGrammar.Proofs.Parser.Repetition

/-!
# What blanks do between tokens

Blanks are passed as far as they go.  A parser amid blanks therefore passes what it would pass by
itself, all blanks in front of that, and all blanks behind it.
-/

namespace TextGrammar.Json

open TextGrammar.Parser

/-- A run of blanks, which may be empty. -/
def Blanks (options : Options) (text : List Char) : Prop :=
  ∀ character ∈ text, options.isBlank character = true

section Blanks

variable {options : Options}

@[simp] theorem blanks_nil : Blanks options [] := by
  simp [Blanks]

@[simp] theorem blanks_singleton {character : Char} :
    Blanks options [character] ↔ options.isBlank character = true := by
  simp [Blanks]

theorem Blanks.append {front back : List Char} (blank : Blanks options front)
    (blankBack : Blanks options back) : Blanks options (front ++ back) :=
  List.forall_mem_append.mpr ⟨blank, blankBack⟩

/-- In front of a text without blanks in front there are none. -/
theorem Blanks.eq_nil {text rest : List Char} (blank : Blanks options text)
    (clear : ClearOf options.isBlank (text ++ rest)) : text = [] := by
  cases text with
  | nil => rfl
  | cons character text =>
      have black := clearOf_cons.mp clear
      rw [blank character List.mem_cons_self] at black
      exact Bool.noConfusion black

/-- Only white space is blank, whatever the options. -/
theorem not_isBlank_of_not_isWhiteSpace {character : Char}
    (black : Text.isWhiteSpace character = false) (options : Options) :
    options.isBlank character = false := by
  have different {blank : Char} (white : Text.isWhiteSpace blank = true) : character ≠ blank :=
    (ne_of_accepts white black).symm
  have space : character ≠ ' ' := different (by decide)
  have tabulator : character ≠ '\t' := different (by decide)
  have lineFeed : character ≠ '\n' := different (by decide)
  have carriageReturn : character ≠ '\r' := different (by decide)
  simp [Options.isBlank, space, tabulator, lineFeed, carriageReturn, black]

/-- Digits are no white space. -/
theorem not_isWhiteSpace_of_isDigit {character : Char} (digit : character.isDigit = true) :
    Text.isWhiteSpace character = false := by
  have bounds : 48 ≤ character.toNat ∧ character.toNat ≤ 57 := Char.isDigit_iff_toNat.mp digit
  simp only [Text.isWhiteSpace, Text.inRanges, Text.whiteSpaceRanges, List.any_cons, List.any_nil,
    Bool.or_false, Bool.or_eq_false_iff, Bool.and_eq_false_iff, decide_eq_false_iff_not]
  omega

/-! ## Passing blanks -/

theorem reads_blanks :
    (blanks options).Reads fun passed found rest =>
      (found = passed ∧ Blanks options passed) ∧ ClearOf options.isBlank rest :=
  reads_many_satisfy options.isBlank

theorem skips_blanks :
    (blanks options).Skips fun passed rest =>
      Blanks options passed ∧ ClearOf options.isBlank rest := by
  refine reads_blanks.skips.congr fun passed rest => ?_
  constructor
  · rintro ⟨_, ⟨-, blank⟩, clear⟩
    exact ⟨blank, clear⟩
  · rintro ⟨blank, clear⟩
    exact ⟨passed, ⟨rfl, blank⟩, clear⟩

theorem run_blanks (text : List Char) :
    (blanks options).run (.ofList text) =
      some (text.takeWhile options.isBlank, .ofList (text.dropWhile options.isBlank)) :=
  run_many_satisfy options.isBlank text

/-- Where there are blanks in front of a value, the value may as well be read behind them. -/
theorem run_amidBlanks_dropWhile {α : Type} (parser : Parser α) (text : List Char) :
    (amidBlanks options parser).run (.ofList (text.dropWhile options.isBlank)) =
      (amidBlanks options parser).run (.ofList text) := by
  simp only [amidBlanks, run_seqLeft, run_seqRight, run_blanks, Option.bind_some,
    List.dropWhile_idempotent _ text]

/-- A value amid blanks, if by itself it begins with something else. -/
theorem reads_amidBlanks {α : Type} {parser : Parser α}
    {Passes : List Char → α → List Char → Prop} (reads : parser.Reads Passes)
    (black : ∀ passed value rest, Passes passed value rest →
      passed ≠ [] ∧ ClearOf options.isBlank passed) :
    (amidBlanks options parser).Reads fun passed value rest =>
      ∃ before text after, passed = before ++ (text ++ after) ∧ Blanks options before ∧
        Passes text value (after ++ rest) ∧ Blanks options after ∧
        ClearOf options.isBlank rest := by
  refine ((Reads.seqRight skips_blanks reads).seqLeft skips_blanks).congr
    fun passed value rest => ?_
  constructor
  · rintro ⟨_, after, rfl, ⟨before, text, rfl, ⟨blank, -⟩, passes⟩, blankAfter, clear⟩
    exact ⟨before, text, after, List.append_assoc _ _ _, blank, passes, blankAfter, clear⟩
  · rintro ⟨before, text, after, rfl, blank, passes, blankAfter, clear⟩
    obtain ⟨filled, clearText⟩ := black _ _ _ passes
    exact ⟨before ++ text, after, (List.append_assoc _ _ _).symm,
      ⟨before, text, rfl, ⟨blank, (clearOf_append filled).mpr clearText⟩, passes⟩, blankAfter,
      clear⟩

end Blanks

end TextGrammar.Json
