import Mathlib.Data.List.TakeDrop
import TextGrammar.Decimal.Basic
import TextGrammar.Proofs.Parser.Repetition

/-!
# Numerals as a language

The texts that spell a number, with the number they spell:

    -? digit+ (. digit+)? ((e|E) (+|-)? digit+)?

The description knows nothing of how numerals are read.  Reading finds the number that a numeral
spells (`ofList?_of_numeral`), so no numeral spells two (`Numeral.unique`).
-/

namespace TextGrammar.Decimal

/-- A run of decimal digits, not empty. -/
def Digits (text : List Char) : Prop :=
  text ≠ [] ∧ ∀ character ∈ text, character.isDigit = true

/-- A sign, with whether it makes a number negative. -/
inductive Sign : List Char → Bool → Prop where
  | absent : Sign [] false
  | minus : Sign ['-'] true

/-- The part of a numeral behind the whole number, with the digits in it. -/
inductive Fraction : List Char → List Char → Prop where
  | absent : Fraction [] []
  | present {digits : List Char} : Digits digits → Fraction ('.' :: digits) digits

/-- The power of ten at the end of a numeral. -/
inductive Scale : List Char → Int → Prop where
  | absent : Scale [] 0
  | unsigned {mark : Char} {digits : List Char} : mark = 'e' ∨ mark = 'E' → Digits digits →
      Scale (mark :: digits) (Nat.ofDigitChars 10 digits 0)
  | plus {mark : Char} {digits : List Char} : mark = 'e' ∨ mark = 'E' → Digits digits →
      Scale (mark :: '+' :: digits) (Nat.ofDigitChars 10 digits 0)
  | minus {mark : Char} {digits : List Char} : mark = 'e' ∨ mark = 'E' → Digits digits →
      Scale (mark :: '-' :: digits) (-Nat.ofDigitChars 10 digits 0)

/-- A numeral, with the number it spells. -/
inductive Numeral : List Char → Decimal → Prop where
  | intro {sign whole fraction scale digits : List Char} {negative : Bool} {exponent : Int} :
      Sign sign negative → Digits whole → Fraction fraction digits → Scale scale exponent →
      Numeral (sign ++ (whole ++ (fraction ++ scale)))
        ⟨negative, Nat.ofDigitChars 10 (whole ++ digits) 0, exponent - digits.length⟩

/-! ## Where the parts begin and end -/

theorem Digits.exists_cons {text : List Char} (digits : Digits text) :
    ∃ first rest, text = first :: rest ∧ first.isDigit = true := by
  obtain ⟨filled, all⟩ := digits
  cases text with
  | nil => exact absurd rfl filled
  | cons first rest => exact ⟨first, rest, rfl, all first List.mem_cons_self⟩

/-- Digits are no characters of any class that holds no digit. -/
theorem Digits.clearOf_append {text : List Char} (digits : Digits text) {accepts : Char → Bool}
    (different : ∀ character, character.isDigit = true → accepts character = false)
    (behind : List Char) : ClearOf accepts (text ++ behind) := by
  obtain ⟨first, rest, rfl, digit⟩ := digits.exists_cons
  exact clearOf_cons.mpr (different first digit)

open TextGrammar.Parser in
/-- A repeated digit passes a run of digits, and no digit is left behind it. -/
theorem skips_digits :
    (many1 (satisfy Char.isDigit)).Skips fun passed rest =>
      Digits passed ∧ ClearOf Char.isDigit rest := by
  refine (reads_many1_satisfy Char.isDigit).skips.congr fun passed rest => ?_
  constructor
  · rintro ⟨_, filled, ⟨-, all⟩, clear⟩
    exact ⟨⟨filled, all⟩, clear⟩
  · rintro ⟨⟨filled, all⟩, clear⟩
    exact ⟨passed, filled, ⟨rfl, all⟩, clear⟩

theorem not_isDigit_of_mark {mark : Char} (exponential : mark = 'e' ∨ mark = 'E') :
    mark.isDigit = false := by
  cases exponential with
  | inl small => rw [small]; rfl
  | inr capital => rw [capital]; rfl

theorem ne_of_isDigit {digit : Char} (isDigit : digit.isDigit = true) (other : Char)
    (different : other.isDigit = false) : digit ≠ other :=
  ne_of_accepts isDigit different

theorem Scale.clearOf_isDigit {text : List Char} {exponent : Int} (scale : Scale text exponent) :
    ClearOf Char.isDigit text := by
  cases scale with
  | absent => exact clearOf_nil
  | unsigned mark _ => exact clearOf_cons.mpr (not_isDigit_of_mark mark)
  | plus mark _ => exact clearOf_cons.mpr (not_isDigit_of_mark mark)
  | minus mark _ => exact clearOf_cons.mpr (not_isDigit_of_mark mark)

theorem Fraction.clearOf_isDigit {text digits : List Char} (fraction : Fraction text digits) :
    ClearOf Char.isDigit text := by
  cases fraction with
  | absent => exact clearOf_nil
  | present _ => exact clearOf_cons.mpr rfl

/-- A numeral begins with its sign or with a digit. -/
theorem Numeral.exists_cons {text : List Char} {decimal : Decimal}
    (numeral : Numeral text decimal) :
    ∃ first rest, text = first :: rest ∧ (first = '-' ∨ first.isDigit = true) := by
  cases numeral with
  | intro signed run _ _ =>
      cases signed with
      | minus => exact ⟨'-', _, rfl, .inl rfl⟩
      | absent =>
          obtain ⟨first, rest, rfl, digit⟩ := run.exists_cons
          exact ⟨first, _, rfl, .inr digit⟩

theorem Digits.exists_concat {text : List Char} (digits : Digits text) :
    ∃ front last, text = front ++ [last] ∧ last.isDigit = true := by
  obtain ⟨filled, all⟩ := digits
  exact ⟨text.dropLast, text.getLast filled, (List.dropLast_concat_getLast filled).symm,
    all _ (List.getLast_mem filled)⟩

/-- A numeral ends in a digit, whichever of its parts comes last. -/
theorem Numeral.exists_concat {text : List Char} {decimal : Decimal}
    (numeral : Numeral text decimal) :
    ∃ front last, text = front ++ [last] ∧ last.isDigit = true := by
  have behind {run : List Char} (front : List Char) (digits : Digits run) :
      ∃ before last, front ++ run = before ++ [last] ∧ last.isDigit = true := by
    obtain ⟨before, last, rfl, digit⟩ := digits.exists_concat
    exact ⟨front ++ before, last, by simp, digit⟩
  cases numeral with
  | @intro sign whole fraction scale _ _ _ _ run part power =>
      cases power with
      | @unsigned mark _ _ digits =>
          simpa using behind (sign ++ whole ++ fraction ++ [mark]) digits
      | @plus mark _ _ digits =>
          simpa using behind (sign ++ whole ++ fraction ++ [mark, '+']) digits
      | @minus mark _ _ digits =>
          simpa using behind (sign ++ whole ++ fraction ++ [mark, '-']) digits
      | absent =>
          cases part with
          | present digits => simpa using behind (sign ++ whole ++ ['.']) digits
          | absent => simpa using behind sign run

/-- A numeral is made of digits and of five marks. -/
theorem Numeral.isDigit_or_mem_marks {text : List Char} {decimal : Decimal}
    (numeral : Numeral text decimal) :
    ∀ character ∈ text, character.isDigit = true ∨ character ∈ ['+', '-', '.', 'e', 'E'] := by
  have run {digits : List Char} (isRun : Digits digits) : ∀ character ∈ digits,
      character.isDigit = true ∨ character ∈ ['+', '-', '.', 'e', 'E'] :=
    fun character member => .inl (isRun.2 character member)
  cases numeral with
  | intro signed whole part power =>
      simp only [List.forall_mem_append]
      refine ⟨?_, run whole, ?_, ?_⟩
      · cases signed with
        | absent => exact List.forall_mem_nil _
        | minus => exact List.forall_mem_singleton.mpr (.inr (by decide))
      · cases part with
        | absent => exact List.forall_mem_nil _
        | present digits => exact List.forall_mem_cons.mpr ⟨.inr (by decide), run digits⟩
      · have marks {mark : Char} (exponential : mark = 'e' ∨ mark = 'E') :
            mark.isDigit = true ∨ mark ∈ ['+', '-', '.', 'e', 'E'] := by
          rcases exponential with rfl | rfl <;> exact .inr (by decide)
        cases power with
        | absent => exact List.forall_mem_nil _
        | unsigned mark digits => exact List.forall_mem_cons.mpr ⟨marks mark, run digits⟩
        | plus mark digits =>
            exact List.forall_mem_cons.mpr
              ⟨marks mark, List.forall_mem_cons.mpr ⟨.inr (by decide), run digits⟩⟩
        | minus mark digits =>
            exact List.forall_mem_cons.mpr
              ⟨marks mark, List.forall_mem_cons.mpr ⟨.inr (by decide), run digits⟩⟩

/-! ## One more digit -/

theorem Digits.append_digit {text : List Char} {digit : Char} (digits : Digits text)
    (isDigit : digit.isDigit = true) : Digits (text ++ [digit]) :=
  ⟨by simp, List.forall_mem_append.mpr ⟨digits.2, by simpa using isDigit⟩⟩

theorem Scale.exists_append_digit {text : List Char} {exponent : Int} {digit : Char}
    (power : Scale text exponent) (filled : text ≠ []) (isDigit : digit.isDigit = true) :
    ∃ exponent, Scale (text ++ [digit]) exponent := by
  cases power with
  | absent => exact absurd rfl filled
  | unsigned mark run => exact ⟨_, .unsigned mark (run.append_digit isDigit)⟩
  | plus mark run => exact ⟨_, .plus mark (run.append_digit isDigit)⟩
  | minus mark run => exact ⟨_, .minus mark (run.append_digit isDigit)⟩

/-- A digit can be added to every numeral, whichever of its parts comes last. -/
theorem Numeral.exists_append_digit {text : List Char} {decimal : Decimal} {digit : Char}
    (numeral : Numeral text decimal) (isDigit : digit.isDigit = true) :
    ∃ decimal, Numeral (text ++ [digit]) decimal := by
  cases numeral with
  | @intro sign whole fraction scale digits _ _ signed run part power =>
      by_cases noPower : scale = []
      · subst noPower
        cases part with
        | absent =>
            have longer := run.append_digit isDigit
            exact ⟨_, by simpa using Numeral.intro signed longer .absent .absent⟩
        | present behindPoint =>
            have longer := behindPoint.append_digit isDigit
            exact ⟨_, by simpa using Numeral.intro signed run (.present longer) .absent⟩
      · obtain ⟨_, longer⟩ := power.exists_append_digit noPower isDigit
        exact ⟨_, by simpa using Numeral.intro signed run part longer⟩

/-! ## Reading -/

theorem digitRun?_append {digits rest : List Char} (run : Digits digits)
    (clear : ClearOf Char.isDigit rest) : digitRun? (digits ++ rest) = some (digits, rest) := by
  rw [digitRun?, List.span_eq_takeWhile_dropWhile, takeWhile_append_clearOf run.2 clear,
    dropWhile_append_clearOf run.2 clear]
  obtain ⟨first, others, rfl, -⟩ := run.exists_cons
  rfl

theorem digitRun?_of_digits {digits : List Char} (run : Digits digits) :
    digitRun? digits = some (digits, []) := by
  simpa using digitRun?_append run clearOf_nil

theorem sign_of_isDigit {first : Char} {rest : List Char} (digit : first.isDigit = true) :
    sign (first :: rest) = (false, first :: rest) := by
  simp [sign, ne_of_isDigit digit '-' rfl]

theorem Sign.sign_append {text rest : List Char} {negative : Bool} (signed : Sign text negative)
    (digits : Digits rest) (behind : List Char) :
    sign (text ++ (rest ++ behind)) = (negative, rest ++ behind) := by
  cases signed with
  | absent =>
      obtain ⟨first, others, rfl, digit⟩ := digits.exists_cons
      exact sign_of_isDigit digit
  | minus => rfl

theorem Fraction.fraction?_append {fraction scale digits : List Char} {exponent : Int}
    (part : Fraction fraction digits) (power : Scale scale exponent) :
    fraction? (fraction ++ scale) = some (digits, scale) := by
  cases part with
  | present run => exact digitRun?_append run power.clearOf_isDigit
  | absent =>
      cases power with
      | absent => rfl
      | unsigned mark _ => rcases mark with rfl | rfl <;> rfl
      | plus mark _ => rcases mark with rfl | rfl <;> rfl
      | minus mark _ => rcases mark with rfl | rfl <;> rfl

theorem scale?_mark {mark : Char} (exponential : mark = 'e' ∨ mark = 'E') (text : List Char) :
    scale? (mark :: text) = exponent? text := by
  rcases exponential with rfl | rfl <;> rfl

theorem exponent?_of_digits {digits : List Char} (run : Digits digits) :
    exponent? digits = some (Nat.ofDigitChars 10 digits 0 : Int) := by
  obtain ⟨first, others, rfl, digit⟩ := run.exists_cons
  have different : first ≠ '+' := ne_of_isDigit digit '+' rfl
  simp [exponent?, different, sign_of_isDigit digit, digitRun?_of_digits run]

theorem Scale.scale?_eq {text : List Char} {exponent : Int} (power : Scale text exponent) :
    scale? text = some exponent := by
  cases power with
  | absent => rfl
  | unsigned mark run => rw [scale?_mark mark, exponent?_of_digits run]
  | plus mark run => simp [scale?_mark mark, exponent?, digitRun?_of_digits run]
  | minus mark run => simp [scale?_mark mark, exponent?, sign, digitRun?_of_digits run]

/-- Every numeral is read as the number it spells. -/
theorem ofList?_of_numeral {text : List Char} {decimal : Decimal} (numeral : Numeral text decimal) :
    ofList? text = some decimal := by
  cases numeral with
  | intro signed whole part power =>
      have clear := part.clearOf_isDigit.append power.clearOf_isDigit
      simp [ofList?, signed.sign_append whole, digitRun?_append whole clear,
        part.fraction?_append power, power.scale?_eq]

/-- No numeral spells two numbers. -/
theorem Numeral.unique {text : List Char} {decimal other : Decimal}
    (numeral : Numeral text decimal) (otherNumeral : Numeral text other) : decimal = other := by
  have same := ofList?_of_numeral numeral
  rw [ofList?_of_numeral otherNumeral, Option.some.injEq] at same
  exact same.symm

end TextGrammar.Decimal
