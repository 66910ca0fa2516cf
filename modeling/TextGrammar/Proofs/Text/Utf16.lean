import TextGrammar.Text.Character

/-!
# UTF-16

A character is encoded by its code point if that is below 2^16, and otherwise by two surrogates,
each of which holds ten bits of what exceeds 2^16.

Whether code units are the encoding of some text can be seen from the surrogates alone: each high
one has to be followed by a low one, and each low one has to follow a high one
(`wellFormed_iff_exists_encode`).
-/

namespace TextGrammar.Text

/-! ## Characters and surrogates -/

theorem scalar?_eq_some_iff {code : Nat} {character : Char} :
    scalar? code = some character ↔ character.toNat = code := by
  constructor
  · intro found
    unfold scalar? at found
    split at found
    · next valid =>
        rw [← Option.some.inj found, Char.ofNat, dif_pos valid]
        rfl
    · exact absurd found (by simp)
  · rintro rfl
    exact scalar?_toNat character

theorem combine?_eq_some_iff {high low : Nat} {character : Char} :
    combine? high low = some character ↔
      (0xD800 ≤ high ∧ high < 0xDC00) ∧ (0xDC00 ≤ low ∧ low < 0xE000) ∧
        character.toNat = 0x10000 + (high - 0xD800) * 0x400 + (low - 0xDC00) := by
  simp only [combine?, isHighSurrogate, isLowSurrogate, Bool.and_eq_true, decide_eq_true_eq]
  split
  · next halves => simp [scalar?_eq_some_iff, halves]
  · next broken =>
      simp only [reduceCtorEq, false_iff]
      exact fun whole => broken ⟨whole.1, whole.2.1⟩

/-- No character is a surrogate. -/
theorem toNat_not_surrogate (character : Char) :
    character.toNat < 0xD800 ∨ 0xE000 ≤ character.toNat := by
  rcases character.valid with low | high
  · exact .inl low
  · exact .inr high.1

theorem isHighSurrogate_iff {unit : Nat} :
    isHighSurrogate unit = true ↔ 0xD800 ≤ unit ∧ unit < 0xDC00 := by
  simp [isHighSurrogate]

theorem isLowSurrogate_iff {unit : Nat} :
    isLowSurrogate unit = true ↔ 0xDC00 ≤ unit ∧ unit < 0xE000 := by
  simp [isLowSurrogate]

/-- No code unit is both halves of a pair. -/
theorem not_isHighSurrogate_of_isLowSurrogate {unit : Nat} (low : isLowSurrogate unit = true) :
    ¬isHighSurrogate unit = true := by
  rw [isLowSurrogate_iff] at low
  rw [isHighSurrogate_iff]
  omega

/-- Any two halves make up a character. -/
theorem exists_combine?_eq_some {high low : Nat} (isHigh : isHighSurrogate high = true)
    (isLow : isLowSurrogate low = true) : ∃ character, combine? high low = some character := by
  have valid : (0x10000 + (high - 0xD800) * 0x400 + (low - 0xDC00)).isValidChar := by
    rw [isHighSurrogate_iff] at isHigh
    rw [isLowSurrogate_iff] at isLow
    simp only [Nat.isValidChar]
    omega
  rw [combine?, isHigh, isLow, Bool.and_self, if_pos rfl, scalar?, if_pos valid]
  exact ⟨_, rfl⟩

/-! ## Encoding -/

/-- The code units of a character. -/
def codeUnits (character : Char) : List Nat :=
  if character.toNat < 0x10000 then [character.toNat]
  else [0xD800 + (character.toNat - 0x10000) / 0x400, 0xDC00 + (character.toNat - 0x10000) % 0x400]

/-- The code units of a text, character by character. -/
def encode (characters : List Char) : List Nat :=
  characters.flatMap codeUnits

@[simp] theorem encode_nil : encode [] = [] := rfl

@[simp] theorem encode_cons (character : Char) (characters : List Char) :
    encode (character :: characters) = codeUnits character ++ encode characters := rfl

theorem codeUnits_of_lt {character : Char} (small : character.toNat < 0x10000) :
    codeUnits character = [character.toNat] :=
  if_pos small

/-- A character that two halves make up is encoded by them. -/
theorem codeUnits_of_combine? {high low : Nat} {character : Char}
    (combined : combine? high low = some character) : codeUnits character = [high, low] := by
  obtain ⟨isHigh, isLow, code⟩ := combine?_eq_some_iff.mp combined
  have great : ¬character.toNat < 0x10000 := by omega
  have quotient : 0xD800 + (character.toNat - 0x10000) / 0x400 = high := by omega
  have remainder : 0xDC00 + (character.toNat - 0x10000) % 0x400 = low := by omega
  rw [codeUnits, if_neg great, quotient, remainder]

/-- A character has one code unit, which is no surrogate, or two, which are the halves of a pair. -/
theorem codeUnits_cases (character : Char) :
    (character.toNat < 0x10000 ∧ codeUnits character = [character.toNat]) ∨
      ∃ high low, codeUnits character = [high, low] ∧ combine? high low = some character := by
  by_cases small : character.toNat < 0x10000
  · exact .inl ⟨small, codeUnits_of_lt small⟩
  · refine .inr ⟨_, _, if_neg small, combine?_eq_some_iff.mpr ?_⟩
    have bound : character.toNat < 0x110000 := by
      rcases character.valid with low | high
      · exact Nat.lt_trans low (by decide)
      · exact high.2
    omega

/-! ## Well-formed sequences -/

/-- Each first half is directly followed by a second one, and each second half directly follows a
first one. -/
def WellFormed (units : List Nat) : Prop :=
  ∀ before unit after, units = before ++ unit :: after →
    (isHighSurrogate unit = true →
      ∃ low, after.head? = some low ∧ isLowSurrogate low = true) ∧
    (isLowSurrogate unit = true →
      ∃ high, before.getLast? = some high ∧ isHighSurrogate high = true)

namespace WellFormed

variable {unit high low : Nat} {units : List Nat}

theorem nil : WellFormed [] := by
  intro before unit after split
  simp at split

/-- A code unit that is no surrogate stands by itself. -/
theorem singleton (noHigh : ¬isHighSurrogate unit = true) (noLow : ¬isLowSurrogate unit = true) :
    WellFormed [unit] := by
  intro before other after split
  obtain ⟨rfl, same⟩ | ⟨-, empty⟩ := List.singleton_eq_append_iff.mp split
  · obtain ⟨rfl, -⟩ := List.cons.inj same
    exact ⟨fun isHigh => absurd isHigh noHigh, fun isLow => absurd isLow noLow⟩
  · exact absurd empty (List.cons_ne_nil _ _)

theorem pair (isHigh : isHighSurrogate high = true) (isLow : isLowSurrogate low = true) :
    WellFormed [high, low] := by
  intro before other after split
  match before with
  | [] =>
      obtain ⟨rfl, rfl⟩ := List.cons.inj split
      exact ⟨fun _ => ⟨low, rfl, isLow⟩,
        fun isLowOther => absurd isHigh (not_isHighSurrogate_of_isLowSurrogate isLowOther)⟩
  | [first] =>
      obtain ⟨rfl, others⟩ := List.cons.inj split
      obtain ⟨rfl, rfl⟩ := List.cons.inj others
      exact ⟨fun isHighOther => absurd isHighOther (not_isHighSurrogate_of_isLowSurrogate isLow),
        fun _ => ⟨high, rfl, isHigh⟩⟩
  | _ :: _ :: before => simp at split

/-- A well-formed sequence that ends in no first half makes no difference to what is behind it. -/
theorem append_iff {front : List Nat} (wellFormed : WellFormed front)
    (ends : ∀ last, front.getLast? = some last → ¬isHighSurrogate last = true) :
    WellFormed (front ++ units) ↔ WellFormed units := by
  constructor
  · rintro whole before unit after rfl
    obtain ⟨followed, follows⟩ := whole (front ++ before) unit after (by rw [List.append_assoc])
    refine ⟨followed, fun isLow => ?_⟩
    obtain ⟨high, last, isHigh⟩ := follows isLow
    rw [List.getLast?_append, Option.or_eq_some_iff] at last
    rcases last with last | ⟨-, last⟩
    · exact ⟨high, last, isHigh⟩
    · exact absurd isHigh (ends high last)
  · intro behind before unit after split
    rcases List.append_eq_append_iff.mp split with ⟨middle, rfl, rfl⟩ | ⟨middle, rfl, tail⟩
    · obtain ⟨followed, follows⟩ := behind middle unit after rfl
      refine ⟨followed, fun isLow => ?_⟩
      obtain ⟨high, last, isHigh⟩ := follows isLow
      exact ⟨high, by rw [List.getLast?_append, last]; rfl, isHigh⟩
    · cases middle with
      | nil =>
          obtain ⟨followed, follows⟩ := behind [] unit after tail.symm
          refine ⟨followed, fun isLow => ?_⟩
          obtain ⟨_, none, -⟩ := follows isLow
          simp at none
      | cons first middle =>
          obtain ⟨rfl, rfl⟩ := List.cons.inj tail
          obtain ⟨followed, follows⟩ := wellFormed before unit middle rfl
          refine ⟨fun isHigh => ?_, follows⟩
          obtain ⟨low, head, isLow⟩ := followed isHigh
          obtain ⟨behindLow, rfl⟩ := List.head?_eq_some_iff.mp head
          exact ⟨low, rfl, isLow⟩

theorem cons_iff_of_scalar (noHigh : ¬isHighSurrogate unit = true)
    (noLow : ¬isLowSurrogate unit = true) : WellFormed (unit :: units) ↔ WellFormed units :=
  (singleton noHigh noLow).append_iff (by rintro _ ⟨⟩; exact noHigh)

theorem cons_iff_of_pair (isHigh : isHighSurrogate high = true)
    (isLow : isLowSurrogate low = true) :
    WellFormed (high :: low :: units) ↔ WellFormed units :=
  (pair isHigh isLow).append_iff
    (by rintro _ ⟨⟩; exact not_isHighSurrogate_of_isLowSurrogate isLow)

/-- The first code unit is no second half, and if it is a first half then a second half follows. -/
theorem of_cons (whole : WellFormed (unit :: units)) :
    ¬isLowSurrogate unit = true ∧
      (isHighSurrogate unit = true →
        ∃ low others, units = low :: others ∧ isLowSurrogate low = true) := by
  obtain ⟨followed, follows⟩ := whole [] unit units rfl
  constructor
  · intro isLow
    obtain ⟨high, last, -⟩ := follows isLow
    simp at last
  · intro isHigh
    obtain ⟨low, head, isLow⟩ := followed isHigh
    obtain ⟨others, rfl⟩ := List.head?_eq_some_iff.mp head
    exact ⟨low, others, rfl, isLow⟩

end WellFormed

/-- What encodes a text is well-formed. -/
theorem wellFormed_encode (characters : List Char) : WellFormed (encode characters) := by
  induction characters with
  | nil => exact .nil
  | cons character characters ih =>
      rw [encode_cons]
      rcases codeUnits_cases character with ⟨-, single⟩ | ⟨high, low, pair, combined⟩
      · have noSurrogate := toNat_not_surrogate character
        rw [single, List.singleton_append, WellFormed.cons_iff_of_scalar]
        · exact ih
        · rw [isHighSurrogate_iff]
          omega
        · rw [isLowSurrogate_iff]
          omega
      · obtain ⟨isHigh, isLow, -⟩ := combine?_eq_some_iff.mp combined
        rw [pair, List.cons_append, List.singleton_append, WellFormed.cons_iff_of_pair
          (isHighSurrogate_iff.mpr isHigh) (isLowSurrogate_iff.mpr isLow)]
        exact ih

/-- Code units that are well-formed encode some text. -/
theorem WellFormed.exists_encode {units : List Nat} (whole : WellFormed units)
    (small : ∀ unit ∈ units, unit < 0x10000) : ∃ characters, encode characters = units := by
  -- One code unit is taken off, or two, so the induction is on the number of them.
  induction count : units.length using Nat.strongRecOn generalizing units with
  | ind count ih =>
      subst count
      cases units with
      | nil => exact ⟨[], rfl⟩
      | cons unit units =>
          obtain ⟨noLow, followed⟩ := whole.of_cons
          obtain ⟨smallUnit, smallOthers⟩ := List.forall_mem_cons.mp small
          by_cases isHigh : isHighSurrogate unit = true
          · obtain ⟨low, others, rfl, isLow⟩ := followed isHigh
            obtain ⟨character, combined⟩ := exists_combine?_eq_some isHigh isLow
            obtain ⟨characters, rfl⟩ := ih others.length (by simp only [List.length_cons]; omega)
              ((cons_iff_of_pair isHigh isLow).mp whole)
              (List.forall_mem_cons.mp smallOthers).2 rfl
            refine ⟨character :: characters, ?_⟩
            rw [encode_cons, codeUnits_of_combine? combined]
            rfl
          · obtain ⟨character, scalar⟩ : ∃ character, scalar? unit = some character := by
              rw [← Option.ne_none_iff_exists', ne_eq, scalar?_eq_none_iff smallUnit]
              exact not_or.mpr ⟨isHigh, noLow⟩
            obtain ⟨characters, rfl⟩ := ih units.length (Nat.lt_succ_self _)
              ((cons_iff_of_scalar isHigh noLow).mp whole) smallOthers rfl
            obtain rfl := scalar?_eq_some_iff.mp scalar
            refine ⟨character :: characters, ?_⟩
            rw [encode_cons, codeUnits_of_lt smallUnit]
            rfl

/-- The well-formed sequences of code units are those that encode a text. -/
theorem wellFormed_iff_exists_encode {units : List Nat} (small : ∀ unit ∈ units, unit < 0x10000) :
    WellFormed units ↔ ∃ characters, encode characters = units := by
  constructor
  · intro whole
    exact whole.exists_encode small
  · rintro ⟨characters, rfl⟩
    exact wellFormed_encode characters

end TextGrammar.Text
