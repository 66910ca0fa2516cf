/-!
# Hexadecimal digits

Digits of both cases are read, and capitals are written.  What is read is related to the tables of
digits: a character is a digit if it stands in one of them, and is worth its place there.
-/

namespace TextGrammar.Text

/-- The value of a hexadecimal digit of either case. -/
def hexValue? (character : Char) : Option Nat :=
  if '0' ≤ character ∧ character ≤ '9' then some (character.toNat - '0'.toNat)
  else if 'a' ≤ character ∧ character ≤ 'f' then some (character.toNat - 'a'.toNat + 10)
  else if 'A' ≤ character ∧ character ≤ 'F' then some (character.toNat - 'A'.toNat + 10)
  else none

/-- The number whose hexadecimal digits have the given values, the leading one first. -/
def ofHexDigits (digits : List Nat) : Nat :=
  digits.foldl (fun number digit => 16 * number + digit) 0

/-- The digit, in capitals, for a value below sixteen. -/
def hexDigit (value : Nat) : Char :=
  if value < 10 then .ofNat ('0'.toNat + value) else .ofNat ('A'.toNat + (value - 10))

/-- The last four hexadecimal digits of a number, in capitals. -/
def fourHexDigits (number : Nat) : List Char :=
  [hexDigit (number / 4096 % 16), hexDigit (number / 256 % 16), hexDigit (number / 16 % 16),
    hexDigit (number % 16)]

theorem hexValue?_hexDigit : ∀ value < 16, hexValue? (hexDigit value) = some value := by
  decide

/-! ## Which characters are digits -/

/-- A hexadecimal digit and what it is worth, which is its place among the digits of its case. -/
def HexDigit (digit : Char) (worth : Nat) : Prop :=
  "0123456789abcdef".toList[worth]? = some digit ∨ "0123456789ABCDEF".toList[worth]? = some digit

instance (digit : Char) (worth : Nat) : Decidable (HexDigit digit worth) :=
  inferInstanceAs (Decidable (_ ∨ _))

theorem HexDigit.lt {digit : Char} {worth : Nat} (place : HexDigit digit worth) : worth < 16 := by
  rcases place with found | found <;> exact (List.getElem?_eq_some_iff.mp found).1

/-- There is no digit behind the small `f`. -/
theorem le_of_hexValue? {digit : Char} {worth : Nat} (found : hexValue? digit = some worth) :
    digit ≤ 'f' := by
  unfold hexValue? at found
  split at found
  · next decimal => exact Char.le_trans decimal.2 (by decide)
  · split at found
    · next small => exact small.2
    · split at found
      · next capital => exact Char.le_trans capital.2 (by decide)
      · exact absurd found (by simp)

/-- Digits of both cases are read as what they are worth, and no other characters are. -/
theorem hexValue?_eq_some_iff {digit : Char} {worth : Nat} :
    hexValue? digit = some worth ↔ HexDigit digit worth := by
  constructor
  · intro found
    -- Up to the last digit every code is looked up in the table.
    have places : ∀ code ≤ 'f'.toNat, ∀ worth ∈ hexValue? (.ofNat code),
        HexDigit (.ofNat code) worth := by decide
    have place := places digit.toNat (le_of_hexValue? found) worth
    rw [Char.ofNat_toNat] at place
    exact place found
  · intro place
    have small : ∀ digit ∈ "0123456789abcdef".toList.zipIdx,
        hexValue? digit.1 = some digit.2 := by decide
    have capital : ∀ digit ∈ "0123456789ABCDEF".toList.zipIdx,
        hexValue? digit.1 = some digit.2 := by decide
    cases place with
    | inl found => exact small (digit, worth) (List.mk_mem_zipIdx_iff_getElem?.mpr found)
    | inr found => exact capital (digit, worth) (List.mk_mem_zipIdx_iff_getElem?.mpr found)

end TextGrammar.Text
