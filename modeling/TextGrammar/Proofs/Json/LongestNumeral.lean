import TextGrammar.Proofs.Json.Number

/-!
# A number is the longest numeral

Where a text begins with a numeral, either the text behind it does not prolong it or some of that
text can be added.  So every numeral grows to one that is not prolonged, and since that is what the
parser passes there is only one such numeral.  The parts that are left out because they are not
complete, a point without digits or a mark without a power, belong to no numeral that the text
begins with.
-/

namespace TextGrammar.Json

open TextGrammar.Parser TextGrammar.Decimal

/-- `passed` is a numeral, and none with which `passed ++ rest` begins is longer. -/
def LongestNumeral (passed rest : List Char) : Prop :=
  (∃ decimal, Numeral passed decimal) ∧
    ∀ other decimal, Numeral other decimal → other <+: passed ++ rest →
      other.length ≤ passed.length

variable {passed rest : List Char} {decimal : Decimal}

/-! ## Prolonging a numeral -/

/-- A text can be added to the numeral `passed`. -/
def Prolongs (passed rest : List Char) : Prop :=
  ∃ more behind, more ≠ [] ∧ rest = more ++ behind ∧ ∃ decimal, Numeral (passed ++ more) decimal

/-- A part that was left out can still be added, if it stands there. -/
theorem Prolongs.of_found {α : Type} {parser : Parser α} {Part : List Char → Prop}
    {Behind : List Char → Prop}
    (skips : parser.Skips fun part behind => (part ≠ [] ∧ Part part) ∧ Behind behind)
    (found : parser.run (.ofList rest) ≠ none)
    (numeral : ∀ part, Part part → ∃ decimal, Numeral (passed ++ part) decimal) :
    Prolongs passed rest := by
  obtain ⟨⟨value, behind⟩, found⟩ := Option.ne_none_iff_exists'.mp found
  obtain ⟨part, split, ⟨filled, valid⟩, -⟩ := (skips _ _).mp ⟨value, found⟩
  exact ⟨part, behind.remaining, filled, split, numeral part valid⟩

theorem Prolongs.of_digit (numeral : Numeral passed decimal)
    (digit : ¬ClearOf Char.isDigit rest) : Prolongs passed rest := by
  cases rest with
  | nil => exact absurd clearOf_nil digit
  | cons first behind =>
      rw [clearOf_cons, Bool.not_eq_false] at digit
      exact ⟨[first], behind, List.cons_ne_nil _ _, rfl, numeral.exists_append_digit digit⟩

/-- A numeral is either not prolonged by the text behind it, or some of that text can be added. -/
theorem numeralBefore_or_prolongs (numeral : Numeral passed decimal) (rest : List Char) :
    (∃ decimal, NumeralBefore passed rest decimal) ∨ Prolongs passed rest := by
  by_cases clear : ClearOf Char.isDigit rest
  · cases numeral with
    | @intro sign whole fraction scale digits negative exponent signed run part power =>
        by_cases noScale : scale = [] → scalePart.run (.ofList rest) = none
        · by_cases noFraction : scale = [] → fraction = [] → fractionPart.run (.ofList rest) = none
          · exact .inl ⟨_, .intro signed run part power clear noScale noFraction⟩
          · simp only [Classical.not_imp] at noFraction
            obtain ⟨rfl, rfl, found⟩ := noFraction
            refine .inr (.of_found skips_fractionPart found ?_)
            rintro added ⟨_, present⟩
            exact ⟨_, by simpa using Numeral.intro signed run present .absent⟩
        · obtain ⟨rfl, found⟩ := Classical.not_imp.mp noScale
          refine .inr (.of_found skips_scalePart found ?_)
          rintro added ⟨_, present⟩
          exact ⟨_, by simpa using Numeral.intro signed run part present⟩
  · exact .inr (.of_digit numeral clear)

/-- Every numeral grows to one that is not prolonged. -/
theorem exists_numeralBefore (numeral : Numeral passed decimal) (rest : List Char) :
    ∃ more behind decimal, rest = more ++ behind ∧
      NumeralBefore (passed ++ more) behind decimal := by
  induction size : rest.length using Nat.strongRecOn generalizing passed decimal rest with
  | ind size ih =>
      subst size
      rcases numeralBefore_or_prolongs numeral rest with ⟨_, before⟩ | prolonged
      · exact ⟨[], rest, _, rfl, by rwa [List.append_nil]⟩
      · obtain ⟨front, behind, filled, rfl, _, longer⟩ := prolonged
        have shorter : behind.length < (front ++ behind).length := by
          simpa using List.length_pos_iff.mpr filled
        obtain ⟨back, last, _, rfl, before⟩ := ih behind.length shorter longer behind rfl
        exact ⟨front ++ back, last, _, (List.append_assoc _ _ _).symm, by simpa using before⟩

/-- A text begins with only one numeral that is not prolonged. -/
theorem NumeralBefore.unique {other behind : List Char} {otherDecimal : Decimal}
    (before : NumeralBefore passed rest decimal)
    (otherBefore : NumeralBefore other behind otherDecimal)
    (same : passed ++ rest = other ++ behind) : passed = other := by
  have found := reads_numeral.run_append ⟨rfl, decimal, before⟩
  have foundOther := reads_numeral.run_append ⟨rfl, otherDecimal, otherBefore⟩
  rw [same, foundOther, Option.some.injEq, Prod.mk.injEq] at found
  exact (String.ofList_injective found.1).symm

/-- A numeral that is not prolonged is the longest one, and the other way round. -/
theorem longestNumeral_iff :
    LongestNumeral passed rest ↔ ∃ decimal, NumeralBefore passed rest decimal := by
  constructor
  · rintro ⟨⟨decimal, numeral⟩, longest⟩
    rcases numeralBefore_or_prolongs numeral rest with before | prolonged
    · exact before
    · obtain ⟨more, behind, filled, rfl, _, longer⟩ := prolonged
      have within := longest _ _ longer (by simp)
      rw [List.length_append] at within
      exact absurd (List.length_pos_iff.mpr filled) (by omega)
  · rintro ⟨decimal, before⟩
    refine ⟨⟨decimal, before.numeral⟩, ?_⟩
    rintro other otherDecimal numeral ⟨behind, split⟩
    obtain ⟨more, last, _, rfl, grown⟩ := exists_numeralBefore numeral behind
    rw [← List.append_assoc] at split
    rw [← grown.unique before split, List.length_append]
    exact Nat.le_add_right _ _

/-! ## What a number passes -/

/-- A number passes the longest numeral, if the double nearest to it is finite. -/
theorem reads_number_longest :
    number.Reads fun passed value rest => LongestNumeral passed rest ∧
      ∃ decimal, Numeral passed decimal ∧ decimal.toBinary64 = value ∧ value.isFinite = true := by
  refine reads_number.congr fun passed value rest => ?_
  rw [longestNumeral_iff]
  constructor
  · rintro ⟨decimal, before, nearest, finite⟩
    exact ⟨⟨decimal, before⟩, decimal, before.numeral, nearest, finite⟩
  · rintro ⟨⟨decimal, before⟩, other, numeral, nearest, finite⟩
    obtain rfl := numeral.unique before.numeral
    exact ⟨_, before, nearest, finite⟩

/-- No shorter numeral is tried when the longest one is not finite. -/
theorem run_number_of_longest (longest : LongestNumeral passed rest)
    (numeral : Numeral passed decimal) (infinite : decimal.toBinary64.isFinite = false) :
    number.run (.ofList (passed ++ rest)) = none := by
  have found := reads_numeral.run_append ⟨rfl, longestNumeral_iff.mp longest⟩
  simp [number, found, finiteNumber?, ofList?_of_numeral numeral, infinite]

/-- Whatever a numeral passes is converted. -/
theorem isSome_ofList?_of_run_numeral {start rest : Cursor} {text : String}
    (found : numeral.run start = some (text, rest)) : (ofList? text.toList).isSome = true := by
  obtain ⟨passed, -, rfl, decimal, before⟩ := (reads_numeral _ _ _).mp found
  rw [String.toList_ofList, ofList?_of_numeral before.numeral]
  rfl

end TextGrammar.Json
