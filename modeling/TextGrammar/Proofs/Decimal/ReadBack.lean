import Mathlib.Tactic.FieldSimp
import TextGrammar.Decimal.Shortest
import TextGrammar.Proofs.Decimal.Conversion

/-!
# Reading back

The numeral chosen for a double is a numeral that reads back to it.  The search accepts nothing
else, and should it find nothing, then every digit of the double is written, and the double nearest
to a double is that double.
-/

namespace TextGrammar.Decimal

open TextGrammar.Binary64

/-- The sign of a numeral is the sign of its double and changes nothing else about it. -/
theorem toBinary64_withSign {numeral : Decimal} {other : Bool} {rank : Fin rankCount}
    (finite : numeral.toBinary64 = .finite other rank) (sign : Bool) :
    ({ numeral with negative := sign } : Decimal).toBinary64 = .finite sign rank := by
  obtain ⟨-, nearest⟩ := toBinary64_eq_finite_iff.mp finite
  exact toBinary64_eq_finite_iff.mpr ⟨rfl, nearest⟩

/-! ## Every digit of a double -/

theorem magnitude_expansion (rank : Nat) :
    (expansion rank).magnitude = Binary64.magnitude rank := by
  unfold expansion Binary64.magnitude
  split
  · next exponent whole =>
      rw [whole]
      simp [magnitude]
  · next exponent fractional =>
      have ten : (10 : Rat) ^ (exponent + 1) = 5 ^ (exponent + 1) * 2 ^ (exponent + 1) := by
        rw [← mul_pow]
        norm_num
      rw [fractional]
      simp only [magnitude, zpow_negSucc, ten, Nat.pow_eq]
      push_cast
      field_simp

/-- Writing every digit of a double gives a numeral that reads back to it. -/
theorem toBinary64_expansion (rank : Fin rankCount) :
    (expansion rank).toBinary64 = .finite false rank := by
  have unsigned : (expansion rank).negative = false := by
    unfold expansion
    split <;> rfl
  rw [toBinary64_eq_nearest, magnitude_expansion, unsigned, nearest_magnitude]

/-- The numeral chosen for a double reads back to it. -/
theorem toBinary64_shortest (rank : Fin rankCount) :
    (shortest rank).toBinary64 = .finite false rank := by
  unfold shortest
  split
  · next none =>
      have first : rank = ⟨0, by decide⟩ := Fin.ext none
      rw [first]
      rfl
  · simp only []
    cases found : (List.range 18).findSome? fun (digits : Nat) =>
        (neighbours (Binary64.magnitude rank)
          (wholeDigits (Binary64.magnitude rank) - digits)).find? (readsBack rank) with
    | none => exact toBinary64_expansion rank
    | some numeral =>
        obtain ⟨digits, -, accepted⟩ := List.exists_of_findSome?_eq_some found
        have same : readsBack rank numeral = true := List.find?_some accepted
        exact beq_iff_eq.mp same

end TextGrammar.Decimal
