/-!
# Characters

Classes of characters are given by ranges of code points: white space, control characters and the
two separators that end a line.

In UTF-16 a character is one code unit of sixteen bits, or a pair of surrogates: a high one and a
low one that completes it.  A surrogate stands for no character by itself.
-/

namespace TextGrammar.Text

/-! ## Classes -/

/-- Whether the code point of a character lies in one of the ranges, whose ends belong to them. -/
def inRanges (ranges : List (Nat × Nat)) (character : Char) : Bool :=
  ranges.any fun (low, high) => decide (low ≤ character.toNat) && decide (character.toNat ≤ high)

/-- The code points with the property `White_Space`. -/
def whiteSpaceRanges : List (Nat × Nat) :=
  [(0x0009, 0x000D), (0x0020, 0x0020), (0x0085, 0x0085), (0x00A0, 0x00A0), (0x1680, 0x1680),
    (0x2000, 0x200A), (0x2028, 0x2029), (0x202F, 0x202F), (0x205F, 0x205F), (0x3000, 0x3000)]

/-- The code points of the general category `Cc`. -/
def controlRanges : List (Nat × Nat) :=
  [(0x0000, 0x001F), (0x007F, 0x009F)]

/-- Whether a character has the property `White_Space`. -/
def isWhiteSpace : Char → Bool :=
  inRanges whiteSpaceRanges

/-- Whether a character is a control character. -/
def isControl : Char → Bool :=
  inRanges controlRanges

/-- Whether a character is the line separator or the paragraph separator. -/
def isSeparator : Char → Bool :=
  inRanges [(0x2028, 0x2029)]

/-! ## UTF-16 code units -/

/-- Whether a code unit is the first half of a pair. -/
def isHighSurrogate (unit : Nat) : Bool :=
  decide (0xD800 ≤ unit) && decide (unit < 0xDC00)

/-- Whether a code unit is the second half of a pair. -/
def isLowSurrogate (unit : Nat) : Bool :=
  decide (0xDC00 ≤ unit) && decide (unit < 0xE000)

/-- The character with the given code point, if there is one. -/
def scalar? (code : Nat) : Option Char :=
  if code.isValidChar then some (.ofNat code) else none

/-- The character that two code units make up, if they are the halves of a pair. -/
def combine? (high low : Nat) : Option Char :=
  if isHighSurrogate high && isLowSurrogate low then
    scalar? (0x10000 + (high - 0xD800) * 0x400 + (low - 0xDC00))
  else
    none

@[simp] theorem scalar?_toNat (character : Char) : scalar? character.toNat = some character := by
  have valid : character.toNat.isValidChar := character.valid
  simp [scalar?, valid]

/-- A code unit stands for a character exactly when it is no surrogate. -/
theorem scalar?_eq_none_iff {unit : Nat} (small : unit < 0x10000) :
    scalar? unit = none ↔ isHighSurrogate unit = true ∨ isLowSurrogate unit = true := by
  simp only [scalar?, Nat.isValidChar, isHighSurrogate, isLowSurrogate, Bool.and_eq_true,
    decide_eq_true_eq]
  split <;> simp <;> omega

end TextGrammar.Text
