import TextGrammar.Json.Grammar
import TextGrammar.Proofs.Decimal.Numeral

/-!
# What a number passes

A number passes a numeral, each part of it as long as the text allows.  Behind it nothing stands
that would prolong it: no digit, and no further part of a numeral where one could still follow.
-/

namespace TextGrammar.Json

open TextGrammar.Parser TextGrammar.Decimal

/-- The part of a numeral behind the point, with the point. -/
def fractionPart : Parser (List Char) :=
  char '.' *> digits

/-- The power of ten of a numeral, with its mark. -/
def scalePart : Parser (List Char) :=
  satisfy (fun mark => mark == 'e' || mark == 'E')
    *> optional (satisfy fun sign => sign == '+' || sign == '-')
    *> digits

theorem numeral_eq :
    numeral = recognize
      (optional (char '-') *> digits <* optional fractionPart <* optional scalePart) := rfl

theorem skips_fractionPart :
    fractionPart.Skips fun passed rest =>
      (passed ≠ [] ∧ ∃ digits, Fraction passed digits) ∧ ClearOf Char.isDigit rest := by
  refine ((skips_char '.').seqRight skips_digits).congr fun passed rest => ?_
  constructor
  · rintro ⟨_, run, rfl, rfl, digits, clear⟩
    exact ⟨⟨List.cons_ne_nil _ _, run, .present digits⟩, clear⟩
  · rintro ⟨⟨filled, run, part⟩, clear⟩
    cases part with
    | absent => exact absurd rfl filled
    | present digits => exact ⟨['.'], run, rfl, rfl, digits, clear⟩

/-- No sign stands in front of digits. -/
theorem run_sign_digits {run rest : List Char} (digits : Digits run) :
    (satisfy fun sign => sign == '+' || sign == '-').run (.ofList (run ++ rest)) = none := by
  refine run_satisfy_of_clearOf (digits.clearOf_append (fun character digit => ?_) rest)
  simp [ne_of_isDigit digit '+' rfl, ne_of_isDigit digit '-' rfl]

theorem skips_scalePart :
    scalePart.Skips fun passed rest =>
      (passed ≠ [] ∧ ∃ exponent, Scale passed exponent) ∧ ClearOf Char.isDigit rest := by
  have mark := (reads_satisfy fun mark => mark == 'e' || mark == 'E').skips
  have sign := (reads_satisfy fun sign => sign == '+' || sign == '-').skips.optionally
  refine ((mark.seqRight sign).seqRight skips_digits).congr fun passed rest => ?_
  simp only [Bool.or_eq_true, beq_iff_eq]
  constructor
  · rintro ⟨_, run, rfl, ⟨_, _, rfl, ⟨mark, rfl, marked⟩, signed⟩, digits, clear⟩
    refine ⟨⟨by simp, ?_⟩, clear⟩
    rcases signed with ⟨_, rfl, rfl | rfl⟩ | ⟨rfl, -⟩
    · exact ⟨_, .plus marked digits⟩
    · exact ⟨_, .minus marked digits⟩
    · exact ⟨_, .unsigned marked digits⟩
  · rintro ⟨⟨filled, exponent, power⟩, clear⟩
    cases power with
    | absent => exact absurd rfl filled
    | @unsigned mark run marked digits =>
        exact ⟨[mark], run, rfl, ⟨[mark], [], rfl, ⟨mark, rfl, marked⟩,
          .inr ⟨rfl, run_sign_digits digits⟩⟩, digits, clear⟩
    | @plus mark run marked digits =>
        exact ⟨[mark, '+'], run, rfl, ⟨[mark], ['+'], rfl, ⟨mark, rfl, marked⟩,
          .inl ⟨'+', rfl, .inl rfl⟩⟩, digits, clear⟩
    | @minus mark run marked digits =>
        exact ⟨[mark, '-'], run, rfl, ⟨[mark], ['-'], rfl, ⟨mark, rfl, marked⟩,
          .inl ⟨'-', rfl, .inr rfl⟩⟩, digits, clear⟩

/-- A numeral, with the number it spells, in front of a text that does not prolong it. -/
inductive NumeralBefore : List Char → List Char → Decimal → Prop where
  | intro {sign whole fraction scale digits rest : List Char} {negative : Bool} {exponent : Int} :
      Sign sign negative → Digits whole → Fraction fraction digits → Scale scale exponent →
      ClearOf Char.isDigit rest →
      (scale = [] → scalePart.run (.ofList rest) = none) →
      (scale = [] → fraction = [] → fractionPart.run (.ofList rest) = none) →
      NumeralBefore (sign ++ (whole ++ (fraction ++ scale))) rest
        ⟨negative, Nat.ofDigitChars 10 (whole ++ digits) 0, exponent - digits.length⟩

/-- No minus stands in front of digits. -/
theorem run_minus_digits {run rest : List Char} (digits : Digits run) :
    (char '-').run (.ofList (run ++ rest)) = none := by
  refine run_satisfy_of_clearOf (digits.clearOf_append (fun character digit => ?_) rest)
  simp [ne_of_isDigit digit '-' rfl]

/-- No fraction begins where a power of ten does. -/
theorem run_fractionPart_scale {scale : List Char} {exponent : Int} (power : Scale scale exponent)
    (filled : scale ≠ []) (rest : List Char) :
    fractionPart.run (.ofList (scale ++ rest)) = none := by
  refine skips_fractionPart.run_eq_none ?_
  rintro passed behind split ⟨⟨partFilled, digits, part⟩, -⟩
  have head : ∀ mark, mark = 'e' ∨ mark = 'E' → mark ≠ '.' := by
    rintro _ (rfl | rfl) <;> decide
  cases part with
  | absent => exact partFilled rfl
  | present _ =>
      cases power with
      | absent => exact filled rfl
      | unsigned marked _ => exact head _ marked (List.cons.inj split).1
      | plus marked _ => exact head _ marked (List.cons.inj split).1
      | minus marked _ => exact head _ marked (List.cons.inj split).1

theorem reads_numeral :
    numeral.Reads fun passed text rest =>
      text = String.ofList passed ∧ ∃ decimal, NumeralBefore passed rest decimal := by
  have minus := (skips_char '-').optionally
  have fraction := skips_fractionPart.optionalPart ⟨[], .absent⟩
  have scale := skips_scalePart.optionalPart ⟨0, .absent⟩
  have composed := (((minus.seqRight skips_digits).seqLeft fraction).seqLeft scale).recognize
  rw [numeral_eq]
  refine composed.congr fun passed text rest => and_congr_right fun _ => ?_
  constructor
  · rintro ⟨_, scale, rfl, ⟨_, fraction, rfl, ⟨sign, whole, rfl, signed, run, clear⟩,
      ⟨digits, part⟩, clearFraction, noFraction⟩, ⟨exponent, power⟩, clearScale, noScale⟩
    obtain ⟨negative, signed⟩ : ∃ negative, Sign sign negative := by
      rcases signed with rfl | ⟨rfl, -⟩
      · exact ⟨true, .minus⟩
      · exact ⟨false, .absent⟩
    rw [List.append_assoc, List.append_assoc]
    refine ⟨_, .intro signed run part power ?_ noScale ?_⟩
    · -- The digits that end last, of whichever part, are followed by none.
      by_cases noPower : scale = []
      · subst noPower
        by_cases noPart : fraction = []
        · simpa [noPart] using clear
        · exact clearFraction noPart
      · exact clearScale noPower
    · rintro rfl rfl
      exact noFraction rfl
  · rintro ⟨decimal, before⟩
    cases before with
    | @intro sign whole fraction scale digits _ negative exponent signed run part power clear
        noScale noFraction =>
      have clearScale : ClearOf Char.isDigit (scale ++ rest) :=
        power.clearOf_isDigit.append clear
      have clearFraction : ClearOf Char.isDigit (fraction ++ (scale ++ rest)) :=
        part.clearOf_isDigit.append clearScale
      refine ⟨(sign ++ whole) ++ fraction, scale, by simp, ⟨sign ++ whole, fraction, rfl,
        ⟨sign, whole, rfl, ?_, run, clearFraction⟩, ⟨digits, part⟩, fun _ => clearScale, ?_⟩,
        ⟨exponent, power⟩, fun _ => clear, noScale⟩
      · cases signed with
        | minus => exact .inl rfl
        | absent => exact .inr ⟨rfl, run_minus_digits run⟩
      · intro noPart
        by_cases noPower : scale = []
        · subst noPower
          exact noFraction rfl noPart
        · exact run_fractionPart_scale power noPower rest

theorem NumeralBefore.numeral {passed rest : List Char} {decimal : Decimal}
    (before : NumeralBefore passed rest decimal) : Numeral passed decimal := by
  cases before with
  | intro signed run part power _ _ _ => exact .intro signed run part power

/-- Whether a character may go on where a numeral could end. -/
def prolongs (character : Char) : Bool :=
  character.isDigit || character == '.' || character == 'e' || character == 'E'

/-- Where no digit, point or mark follows, nothing prolongs a numeral. -/
theorem numeralBefore_of_clearOf {passed rest : List Char} {decimal : Decimal}
    (numeral : Numeral passed decimal) (clear : ClearOf prolongs rest) :
    NumeralBefore passed rest decimal := by
  cases numeral with
  | intro signed run part power =>
      have noMark : ClearOf (fun mark => mark == 'e' || mark == 'E') rest :=
        clear.mono fun mark marked => by
          rcases Bool.or_eq_true_iff.mp marked with same | same <;> simp [prolongs, same]
      have noPoint : ClearOf (· == '.') rest :=
        clear.mono fun point same => by simp [prolongs, same]
      have noDigit : ClearOf Char.isDigit rest :=
        clear.mono fun digit isDigit => by simp [prolongs, isDigit]
      refine .intro signed run part power noDigit (fun _ => ?_) (fun _ _ => ?_)
      · simp [scalePart, run_satisfy_of_clearOf noMark]
      · simp [fractionPart, char, run_satisfy_of_clearOf noPoint]

/-- A number passes a numeral of a finite double. -/
theorem reads_number :
    number.Reads fun passed value rest =>
      ∃ decimal, NumeralBefore passed rest decimal ∧ decimal.toBinary64 = value ∧
        value.isFinite = true := by
  have converted {passed rest : List Char} {decimal : Decimal}
      (before : NumeralBefore passed rest decimal) (value : Binary64) :
      finiteNumber? (.ofList passed) = some value ↔
        decimal.toBinary64 = value ∧ value.isFinite = true := by
    rw [finiteNumber?, String.toList_ofList, ofList?_of_numeral before.numeral, Option.map_some,
      Option.filter_eq_some_iff, Option.some.injEq]
  refine (reads_numeral.filterMap finiteNumber?).congr fun passed value rest => ?_
  constructor
  · rintro ⟨_, ⟨rfl, decimal, before⟩, accepted⟩
    exact ⟨decimal, before, (converted before value).mp accepted⟩
  · rintro ⟨decimal, before, accepted⟩
    exact ⟨_, ⟨rfl, decimal, before⟩, (converted before value).mpr accepted⟩

end TextGrammar.Json
