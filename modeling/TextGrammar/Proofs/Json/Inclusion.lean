import TextGrammar.Proofs.Json.Derivation

/-!
# Languages within languages

A grammar with more blanks, more strings or more brackets to open has every text of one with fewer,
and the text means the same.  Where only some characters occur in a text, the strings of the two
grammars need to be compared only as far as they are made of those.
-/

namespace TextGrammar.Json

/-- The blanks of `narrow` are blanks of `wide`.  Its strings are strings of `wide` that spell the
same, if only characters that `Only` holds of occur in them. -/
structure Options.Within (Only : Char → Prop) (narrow wide : Options) : Prop where
  isBlank : ∀ character, narrow.isBlank character = true → wide.isBlank character = true
  quotation : ∀ name content, (∀ character ∈ name, Only character) →
    Quotation narrow.escapes name content → Quotation wide.escapes name content

theorem Options.Within.refl (Only : Char → Prop) (options : Options) :
    options.Within Only options :=
  ⟨fun _ blank => blank, fun _ _ _ quotation => quotation⟩

variable {Only : Char → Prop} {narrow wide : Options} {depth limit : Nat} {text : List Char}

theorem Blanks.transfer (within : narrow.Within Only wide) (blank : Blanks narrow text) :
    Blanks wide text :=
  fun character member => within.isBlank character (blank character member)

/-- What is in a part is in the whole. -/
theorem forall_mem_of_intercalate {α : Type} {mark : Char} {parts : List (List Char × α)}
    (only : ∀ character ∈ [mark].intercalate (parts.map Prod.fst), Only character) :
    ∀ part ∈ parts, ∀ character ∈ part.1, Only character := by
  cases parts with
  | nil => simp
  | cons first others =>
      rw [List.map_cons, Parser.intercalate_cons, List.forall_mem_append] at only
      obtain ⟨onlyFirst, onlyOthers⟩ := only
      refine List.forall_mem_cons.mpr ⟨onlyFirst, fun part member character inPart => ?_⟩
      apply onlyOthers
      exact List.mem_flatMap.mpr
        ⟨part.1, List.mem_map_of_mem member, List.mem_cons_of_mem mark inPart⟩

theorem Element.imp {value : Value} (within : narrow.Within Only wide)
    (only : ∀ character ∈ text, Only character) (element : Element narrow depth text value)
    (bares : ∀ core, (∀ character ∈ core, Only character) → Bare narrow depth core value →
      Bare wide limit core value) : Element wide limit text value := by
  cases element with
  | intro blank bare blankAfter =>
      simp only [List.forall_mem_append] at only
      exact .intro (blank.transfer within) (bares _ only.2.1 bare) (blankAfter.transfer within)

theorem Member.imp {entry : String × Value} (within : narrow.Within Only wide)
    (only : ∀ character ∈ text, Only character) (isMember : Member narrow depth text entry)
    (bares : ∀ core, (∀ character ∈ core, Only character) → Bare narrow depth core entry.2 →
      Bare wide limit core entry.2) : Member wide limit text entry := by
  cases isMember with
  | intro blank quotation blankAfter element =>
      simp only [List.forall_mem_append, List.forall_mem_cons] at only
      exact .intro (blank.transfer within) (within.quotation _ _ only.2.1 quotation)
        (blankAfter.transfer within) (element.imp within only.2.2.2.2 bares)

/-- A value of one grammar is a value, and the same, of every grammar that has its blanks, its
strings and as many brackets to open or more. -/
theorem Bare.transfer {value : Value} (within : narrow.Within Only wide) (enough : depth ≤ limit)
    (only : ∀ character ∈ text, Only character) (bare : Bare narrow depth text value) :
    Bare wide limit text value := by
  -- Each container takes one bracket of both budgets, on the smaller of which the induction is.
  induction depth using Nat.strongRecOn generalizing limit text value with
  | ind depth ih =>
      have opened {inner : Nat} (enough : inner + 1 ≤ limit) :
          ∃ rest, limit = rest + 1 ∧ inner ≤ rest := by
        obtain ⟨rest, rfl⟩ := Nat.exists_eq_add_of_le' enough
        exact ⟨rest + inner, rfl, Nat.le_add_left inner rest⟩
      cases bare with
      | null => exact .null
      | truth => exact .truth
      | falsehood => exact .falsehood
      | number numeral finite => exact .number numeral finite
      | string quotation => exact .string (within.quotation _ _ only quotation)
      | emptyArray blank =>
          obtain ⟨rest, rfl, -⟩ := opened enough
          exact .emptyArray (blank.transfer within)
      | emptyObject blank =>
          obtain ⟨rest, rfl, -⟩ := opened enough
          exact .emptyObject (blank.transfer within)
      | @array inner parts filled all =>
          obtain ⟨rest, rfl, enoughInside⟩ := opened enough
          simp only [List.forall_mem_cons, List.forall_mem_append] at only
          have onlyParts := forall_mem_of_intercalate only.2.1
          exact .array filled fun part member =>
            (all part member).imp within (onlyParts part member) fun _ onlyCore bare =>
              ih inner (Nat.lt_succ_self inner) enoughInside onlyCore bare
      | @object inner parts filled all =>
          obtain ⟨rest, rfl, enoughInside⟩ := opened enough
          simp only [List.forall_mem_cons, List.forall_mem_append] at only
          have onlyParts := forall_mem_of_intercalate only.2.1
          exact .object filled fun part member =>
            (all part member).imp within (onlyParts part member) fun _ onlyCore bare =>
              ih inner (Nat.lt_succ_self inner) enoughInside onlyCore bare

/-! ## More brackets -/

variable {options : Options}

theorem Bare.mono {value : Value} (bare : Bare options depth text value) (enough : depth ≤ limit) :
    Bare options limit text value :=
  bare.transfer (.refl (fun _ => True) options) enough fun _ _ => trivial

theorem Element.mono {value : Value} (element : Element options depth text value)
    (enough : depth ≤ limit) : Element options limit text value :=
  element.imp (.refl (fun _ => True) options) (fun _ _ => trivial) fun _ _ bare => bare.mono enough

theorem Member.mono {entry : String × Value} (isMember : Member options depth text entry)
    (enough : depth ≤ limit) : Member options limit text entry :=
  isMember.imp (.refl (fun _ => True) options) (fun _ _ => trivial) fun _ _ bare =>
    bare.mono enough

end TextGrammar.Json
