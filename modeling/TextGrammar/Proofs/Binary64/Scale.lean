import Mathlib.Algebra.Order.Field.Power
import Mathlib.Algebra.Order.Field.Rat
import Mathlib.Order.Monotone.Basic
import Mathlib.Tactic.Ring
import TextGrammar.Binary64.Basic

/-!
# The scale of the doubles

The ranks are a scale on which the magnitudes grow from step to step.  The doubles that share an
exponent are multiples of one power of two, and so is the double that follows them: from any rank to
the next it is one unit of the lower one.  The scale goes on past the last finite double.
-/

namespace TextGrammar.Binary64

/-- A rank as a multiple of the unit of its exponent.  Only the least exponent has multiples with
fewer than 53 binary digits. -/
theorem exists_place (rank : Nat) :
    ∃ place units, rank = place * binade + units ∧ units < 2 * binade ∧
      (place = 0 ∨ binade ≤ units) := by
  by_cases subnormal : rank < binade
  · exact ⟨0, rank, by simp, by omega, .inl rfl⟩
  · refine ⟨rank / binade - 1, binade + rank % binade, ?_, ?_, .inr (Nat.le_add_right _ _)⟩ <;>
      unfold binade at subnormal ⊢ <;> omega

section

variable {place units : Nat} (first : place = 0 ∨ binade ≤ units)
include first

theorem significand_place (few : units < 2 * binade) :
    significand (place * binade + units) = units := by
  unfold significand binade at *
  split <;> omega

theorem binaryExponent_place (few : units < 2 * binade) :
    binaryExponent (place * binade + units) = place - 1074 := by
  unfold binaryExponent binade at *
  omega

/-- The magnitude of a multiple of a unit.  Twice 2^52 units of one exponent are 2^52 units of the
next. -/
theorem magnitude_place (few : units ≤ 2 * binade) :
    magnitude (place * binade + units) = units * 2 ^ ((place : Int) - 1074) := by
  rcases Nat.lt_or_eq_of_le few with fewer | rfl
  · rw [magnitude, significand_place first fewer, binaryExponent_place first fewer]
  · have next : place * binade + 2 * binade = (place + 1) * binade + binade := by ring
    have less : binade < 2 * binade := by decide
    rw [next, magnitude, significand_place (.inr (le_refl binade)) less,
      binaryExponent_place (.inr (le_refl binade)) less, Nat.cast_succ, add_sub_right_comm,
      zpow_add_one₀ two_ne_zero]
    push_cast
    ring

end

/-- From a rank to the next it is one unit. -/
theorem magnitude_succ (rank : Nat) :
    magnitude (rank + 1) = magnitude rank + 2 ^ binaryExponent rank := by
  obtain ⟨place, units, rfl, few, first⟩ := exists_place rank
  have after : place = 0 ∨ binade ≤ units + 1 := first.imp_right Nat.le_succ_of_le
  rw [add_assoc, magnitude_place after few, magnitude_place first few.le,
    binaryExponent_place first few]
  push_cast
  ring

/-- The doubles lie in the order of their ranks. -/
theorem magnitude_strictMono : StrictMono magnitude := by
  apply strictMono_nat_of_lt_succ
  intro rank
  rw [magnitude_succ]
  exact lt_add_of_pos_right _ (zpow_pos two_pos _)

@[simp] theorem magnitude_zero : magnitude 0 = 0 := by
  simp [magnitude, significand, binade]

theorem magnitude_nonneg (rank : Nat) : 0 ≤ magnitude rank := by
  rw [← magnitude_zero]
  exact magnitude_strictMono.monotone (Nat.zero_le rank)

/-- Significands alternate between even and odd, across exponents too. -/
theorem significand_mod_two (rank : Nat) : significand rank % 2 = rank % 2 := by
  unfold significand binade
  split <;> omega

end TextGrammar.Binary64
