import TextGrammar.Decimal.Layout
import TextGrammar.Proofs.Decimal.Numeral
import TextGrammar.Proofs.Decimal.ReadBack

/-!
# What is written is read back

A numeral written without a power of ten spells the same number, with the zeros of a whole number
written out.  A finite double is written as such a numeral of it, so it is read back exactly, with
its sign, and zero with its sign too.
-/

namespace TextGrammar

namespace Decimal

/-- The numeral with the zeros written out that a positive power of ten stands for. -/
def withoutScale (numeral : Decimal) : Decimal :=
  if 0 ≤ numeral.exponent then
    ⟨numeral.negative, numeral.coefficient * 10 ^ numeral.exponent.toNat, 0⟩
  else
    numeral

theorem magnitude_withoutScale (numeral : Decimal) :
    numeral.withoutScale.magnitude = numeral.magnitude := by
  unfold withoutScale
  split
  · next whole =>
      have power : (10 : Rat) ^ numeral.exponent.toNat = 10 ^ numeral.exponent := by
        rw [← zpow_natCast, Int.toNat_of_nonneg whole]
      simp [magnitude, power]
  · rfl

theorem toBinary64_withoutScale (numeral : Decimal) :
    numeral.withoutScale.toBinary64 = numeral.toBinary64 := by
  have sign : numeral.withoutScale.negative = numeral.negative := by
    unfold withoutScale
    split <;> rfl
  rw [toBinary64_eq_nearest, toBinary64_eq_nearest, magnitude_withoutScale, sign]

/-! ## The text of a numeral -/

theorem digits_toDigits (number : Nat) : Digits (Nat.toDigits 10 number) :=
  ⟨Nat.toDigits_ne_nil, fun _ member => Nat.isDigit_of_mem_toDigits (by decide) (by decide) member⟩

theorem isDigit_of_mem_zeros {count : Nat} {character : Char}
    (member : character ∈ List.replicate count '0') : character.isDigit = true := by
  rw [List.eq_of_mem_replicate member]
  rfl

theorem Digits.append_zeros {digits : List Char} (run : Digits digits) (count : Nat) :
    Digits (digits ++ List.replicate count '0') :=
  ⟨by simp [run.1], List.forall_mem_append.mpr ⟨run.2, fun _ => isDigit_of_mem_zeros⟩⟩

theorem Digits.zeros_append {digits : List Char} (run : Digits digits) (count : Nat) :
    Digits (List.replicate count '0' ++ digits) :=
  ⟨by simp [run.1], List.forall_mem_append.mpr ⟨fun _ => isDigit_of_mem_zeros, run.2⟩⟩

/-- Digits come apart into digits, if neither part is empty. -/
theorem Digits.split {digits : List Char} (run : Digits digits) (count : Nat)
    (positive : 0 < count) (fewer : count < digits.length) :
    Digits (digits.take count) ∧ Digits (digits.drop count) := by
  refine ⟨⟨?_, fun character member => run.2 character (List.mem_of_mem_take member)⟩,
    ⟨?_, fun character member => run.2 character (List.mem_of_mem_drop member)⟩⟩
  · rw [ne_eq, List.take_eq_nil_iff]
    exact not_or.mpr ⟨positive.ne', run.1⟩
  · rw [ne_eq, List.drop_eq_nil_iff]
    omega

/-- A whole number. -/
theorem numeral_whole {sign whole : List Char} {negative : Bool} (signed : Sign sign negative)
    (digits : Digits whole) :
    Numeral (sign ++ whole) ⟨negative, Nat.ofDigitChars 10 whole 0, 0⟩ := by
  simpa using Numeral.intro signed digits .absent .absent

/-- A number with a point in it. -/
theorem numeral_fractional {sign whole fraction : List Char} {negative : Bool}
    (signed : Sign sign negative) (digits : Digits whole) (behind : Digits fraction) :
    Numeral (sign ++ (whole ++ '.' :: fraction))
      ⟨negative, Nat.ofDigitChars 10 (whole ++ fraction) 0, -fraction.length⟩ := by
  simpa using Numeral.intro signed digits (.present behind) .absent

/-- Zeros in front of digits add nothing. -/
theorem ofDigitChars_zeros_append (count : Nat) (digits : List Char) :
    Nat.ofDigitChars 10 (List.replicate count '0' ++ digits) 0 = Nat.ofDigitChars 10 digits 0 := by
  rw [Nat.ofDigitChars_append, Nat.ofDigitChars_replicate_zero, Nat.mul_zero]

/-- The digits of a number with a point among them or zeros around them. -/
theorem numeral_positional {sign : List Char} {negative : Bool} (signed : Sign sign negative)
    (coefficient : Nat) (exponent : Int) :
    Numeral (sign ++ positional .plain (Nat.toDigits 10 coefficient) exponent)
      (withoutScale ⟨negative, coefficient, exponent⟩) := by
  have digits := digits_toDigits coefficient
  have value : Nat.ofDigitChars 10 (Nat.toDigits 10 coefficient) 0 = coefficient :=
    Nat.ofDigitChars_ten_toDigits
  generalize Nat.toDigits 10 coefficient = written at digits value
  simp only [positional, withoutScale]
  split
  · have spelled := numeral_whole signed (digits.append_zeros exponent.toNat)
    rw [Nat.ofDigitChars_append, Nat.ofDigitChars_replicate_zero, value, Nat.mul_comm] at spelled
    simpa [Layout.plain] using spelled
  · next scaled =>
      split
      · next small =>
          -- All digits stand behind the point, and a zero in front of it.
          generalize countEq : (-(written.length + exponent)).toNat = count
          have zero : Digits ['0'] := ⟨List.cons_ne_nil _ _, List.forall_mem_singleton.mpr rfl⟩
          have spelled := numeral_fractional signed zero (digits.zeros_append count)
          have same : Nat.ofDigitChars 10 (['0'] ++ (List.replicate count '0' ++ written)) 0 =
              coefficient :=
            ((ofDigitChars_zeros_append 1 _).trans (ofDigitChars_zeros_append _ _)).trans value
          have places : -((List.replicate count '0' ++ written).length : Int) = exponent := by
            rw [List.length_append, List.length_replicate]
            omega
          rw [same, places] at spelled
          exact spelled
      · next mixed =>
          generalize countEq : (written.length + exponent).toNat = count
          obtain ⟨front, behind⟩ := digits.split count (by omega) (by omega)
          have spelled := numeral_fractional signed front behind
          have places : -((written.drop count).length : Int) = exponent := by
            rw [List.length_drop]
            omega
          rw [List.take_append_drop, value, places] at spelled
          exact spelled

/-- The text of a numeral spells it. -/
theorem numeral_chars (numeral : Decimal) :
    Numeral (numeral.chars .plain) numeral.withoutScale := by
  obtain ⟨negative, coefficient, exponent⟩ := numeral
  cases negative with
  | false => exact numeral_positional .absent coefficient exponent
  | true => exact numeral_positional .minus coefficient exponent

end Decimal

namespace Binary64

open Decimal

/-- The text of a finite double is a numeral of it. -/
theorem exists_numeral_chars {number : Binary64} (finite : number.isFinite = true) :
    ∃ decimal, Numeral (number.chars .plain) decimal ∧ decimal.toBinary64 = number := by
  cases number with
  | finite negative rank =>
      have reads := toBinary64_withSign (toBinary64_shortest rank) negative
      exact ⟨_, numeral_chars _, (toBinary64_withoutScale _).trans reads⟩
  | infinity negative => exact absurd finite (by simp [isFinite])
  | nan => exact absurd finite (by simp [isFinite])

end Binary64

end TextGrammar
