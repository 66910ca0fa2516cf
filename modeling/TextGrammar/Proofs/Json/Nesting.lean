import TextGrammar.Proofs.Json.Brackets
import TextGrammar.Proofs.Json.Inclusion
import TextGrammar.Proofs.Json.Members
import TextGrammar.Proofs.Json.Walk

/-!
# How deeply a text is nested

A text of the language closes what it opens.  How many brackets have to be admitted for it is the
number that are open at once at the most: with fewer it has no derivation, and with more it has the
same.  That number is the depth of the value, unless an object repeats a key and the value that was
lost is deeper than the one that was kept.
-/

namespace TextGrammar.Json

variable {options : Options} {depth : Nat} {text : List Char}

/-! ## Parts amid blanks and behind keys -/

section Parts

variable {mode : EscapeMode} {before name after : List Char} {key : String} {height : Nat}

theorem Rises.amidBlanks (rises : Rises mode text height) (blank : Blanks options before)
    (blankAfter : Blanks options after) : Rises mode (before ++ (text ++ after)) height := by
  have together := (rises_blanks blank).append (rises.append (rises_blanks blankAfter))
  simpa using together

theorem Rises.behindKey (rises : Rises mode text height) (blank : Blanks options before)
    (quotation : Quotation mode name key) (blankAfter : Blanks options after) :
    Rises mode (before ++ (name ++ (after ++ ':' :: text))) height := by
  have colon : Rises mode [':'] 0 := rises_of_any_marksBracket rfl
  have together := (rises_blanks blank).append
    ((rises_quotation quotation).append ((rises_blanks blankAfter).append (colon.append rises)))
  simpa using together

end Parts

/-! ## No more brackets than are open at once -/

/-- Parts that each need as many brackets as they rise need, with commas between them, as many as
they rise together. -/
theorem exists_height_intercalate {α : Type} {mode : EscapeMode}
    (Part : Nat → List Char → α → Prop)
    (mono : ∀ low high text value, low ≤ high → Part low text value → Part high text value)
    {parts : List (List Char × α)}
    (each : ∀ part ∈ parts, ∃ height ≤ depth, Rises mode part.1 height ∧
      Part height part.1 part.2) :
    ∃ height ≤ depth, Rises mode ([','].intercalate (parts.map Prod.fst)) height ∧
      ∀ part ∈ parts, Part height part.1 part.2 := by
  have own : ∀ part ∈ parts, mostOpen mode part.1 ≤ depth ∧
      Rises mode part.1 (mostOpen mode part.1) ∧ Part (mostOpen mode part.1) part.1 part.2 := by
    intro part member
    obtain ⟨height, within, rises, holds⟩ := each part member
    rw [rises.mostOpen_eq]
    exact ⟨within, rises, holds⟩
  have bound := foldr_max_le_iff.mp
    (Nat.le_refl ((parts.map fun part => mostOpen mode part.1).foldr max 0))
  refine ⟨_, foldr_max_le_iff.mpr ?_, rises_intercalate fun part member => (own part member).2.1,
    fun part member => mono _ _ _ _ (bound _ (List.mem_map_of_mem member)) (own part member).2.2⟩
  rw [List.forall_mem_map]
  exact fun part member => (own part member).1

theorem Element.exists_height {value : Value} (element : Element options depth text value)
    (bares : ∀ core, Bare options depth core value →
      ∃ height ≤ depth, Rises options.escapes core height ∧ Bare options height core value) :
    ∃ height ≤ depth, Rises options.escapes text height ∧ Element options height text value := by
  cases element with
  | intro blank bare blankAfter =>
      obtain ⟨height, within, rises, bare⟩ := bares _ bare
      exact ⟨height, within, rises.amidBlanks blank blankAfter, .intro blank bare blankAfter⟩

theorem Member.exists_height {entry : String × Value}
    (isMember : Member options depth text entry)
    (bares : ∀ core, Bare options depth core entry.2 →
      ∃ height ≤ depth, Rises options.escapes core height ∧ Bare options height core entry.2) :
    ∃ height ≤ depth, Rises options.escapes text height ∧ Member options height text entry := by
  cases isMember with
  | intro blank quotation blankAfter element =>
      obtain ⟨height, within, rises, element⟩ := element.exists_height bares
      exact ⟨height, within, rises.behindKey blank quotation blankAfter,
        .intro blank quotation blankAfter element⟩

/-- A value closes what it opens, and needs as many brackets as it rises. -/
theorem Bare.exists_height {value : Value} (bare : Bare options depth text value) :
    ∃ height ≤ depth, Rises options.escapes text height ∧ Bare options height text value := by
  induction depth using Nat.strongRecOn generalizing text value with
  | ind depth ih =>
      have word {letters : List Char} (plain : letters.any marksBracket = false) :
          Rises options.escapes letters 0 :=
        rises_of_any_marksBracket plain
      cases bare with
      | null => exact ⟨0, Nat.zero_le _, word rfl, .null⟩
      | truth => exact ⟨0, Nat.zero_le _, word rfl, .truth⟩
      | falsehood => exact ⟨0, Nat.zero_le _, word rfl, .falsehood⟩
      | number numeral finite =>
          exact ⟨0, Nat.zero_le _, rises_numeral numeral, .number numeral finite⟩
      | string quotation =>
          exact ⟨0, Nat.zero_le _, rises_quotation quotation, .string quotation⟩
      | emptyArray blank =>
          exact ⟨1, Nat.succ_le_succ (Nat.zero_le _), (rises_blanks blank).bracketed rfl rfl,
            .emptyArray blank⟩
      | emptyObject blank =>
          exact ⟨1, Nat.succ_le_succ (Nat.zero_le _), (rises_blanks blank).bracketed rfl rfl,
            .emptyObject blank⟩
      | @array inner parts filled all =>
          have each := fun part member => (all part member).exists_height fun _ bare =>
            ih inner (Nat.lt_succ_self inner) bare
          obtain ⟨height, within, rises, all⟩ := exists_height_intercalate (Element options)
            (fun _ _ _ _ within part => part.mono within) each
          exact ⟨height + 1, Nat.succ_le_succ within, rises.bracketed rfl rfl, .array filled all⟩
      | @object inner parts filled all =>
          have each := fun part member => (all part member).exists_height fun _ bare =>
            ih inner (Nat.lt_succ_self inner) bare
          obtain ⟨height, within, rises, all⟩ := exists_height_intercalate (Member options)
            (fun _ _ _ _ within part => part.mono within) each
          exact ⟨height + 1, Nat.succ_le_succ within, rises.bracketed rfl rfl, .object filled all⟩

/-! ## Repeated keys -/

/-- A key stands twice in some object of the text of a value, itself or within it. -/
inductive RepeatsKey (options : Options) : List Char → Prop where
  | object {depth : Nat} {parts : List (List Char × (String × Value))} :
      (∀ part ∈ parts, Member options depth part.1 part.2) →
      ¬(parts.map fun part => part.2.1).Nodup →
      RepeatsKey options ('\x7b' :: ([','].intercalate (parts.map Prod.fst) ++ ['\x7d']))
  | item {depth : Nat} {parts : List (List Char × Value)} {part : List Char × Value} :
      (∀ part ∈ parts, Element options depth part.1 part.2) → part ∈ parts →
      RepeatsKey options part.1 →
      RepeatsKey options ('[' :: ([','].intercalate (parts.map Prod.fst) ++ [']']))
  | member {depth : Nat} {parts : List (List Char × (String × Value))}
      {before name after text : List Char} {key : String} {value : Value} :
      (∀ part ∈ parts, Member options depth part.1 part.2) →
      (before ++ (name ++ (after ++ ':' :: text)), (key, value)) ∈ parts →
      Blanks options before → Quotation options.escapes name key → Blanks options after →
      RepeatsKey options text →
      RepeatsKey options ('\x7b' :: ([','].intercalate (parts.map Prod.fst) ++ ['\x7d']))
  | amidBlanks {before text after : List Char} : Blanks options before → RepeatsKey options text →
      Blanks options after → RepeatsKey options (before ++ (text ++ after))

theorem Value.depthOfItems_eq (items : List Value) :
    depthOfItems items = (items.map Value.depth).foldr max 0 := by
  induction items with
  | nil => rfl
  | cons item items ih => rw [depthOfItems, ih, List.map_cons, List.foldr_cons]

theorem Value.depthOfEntries_eq (entries : List (String × Value)) :
    depthOfEntries entries = (entries.map fun entry => entry.2.depth).foldr max 0 := by
  induction entries with
  | nil => rfl
  | cons entry entries ih => rw [depthOfEntries, ih, List.map_cons, List.foldr_cons]

theorem Element.rises_depth {value : Value} (element : Element options depth text value)
    (distinct : ¬RepeatsKey options text)
    (bares : ∀ core, Bare options depth core value → ¬RepeatsKey options core →
      Rises options.escapes core value.depth) : Rises options.escapes text value.depth := by
  cases element with
  | intro blank bare blankAfter =>
      have rises := bares _ bare fun repeats => distinct (.amidBlanks blank repeats blankAfter)
      exact rises.amidBlanks blank blankAfter

/-- Without repeated keys a text rises as high as the value is deep, since no part of it is lost. -/
theorem Bare.rises_depth {value : Value} (bare : Bare options depth text value)
    (distinct : ¬RepeatsKey options text) : Rises options.escapes text value.depth := by
  induction depth using Nat.strongRecOn generalizing text value with
  | ind depth ih =>
      cases bare with
      | null => exact rises_of_any_marksBracket rfl
      | truth => exact rises_of_any_marksBracket rfl
      | falsehood => exact rises_of_any_marksBracket rfl
      | number numeral _ => exact rises_numeral numeral
      | string quotation => exact rises_quotation quotation
      | emptyArray blank => exact (rises_blanks blank).bracketed rfl rfl
      | emptyObject blank => exact (rises_blanks blank).bracketed rfl rfl
      | @array inner parts filled all =>
          have rises : ∀ part ∈ parts, Rises options.escapes part.1 part.2.depth :=
            fun part member => (all part member).rises_depth
              (fun repeats => distinct (.item all member repeats))
              fun _ bare => ih inner (Nat.lt_succ_self inner) bare
          have inside := rises_intercalate rises
          rw [Value.depth, Value.depthOfItems_eq, List.map_map]
          exact inside.bracketed rfl rfl
      | @object inner parts filled all =>
          have rises : ∀ part ∈ parts, Rises options.escapes part.1 part.2.2.depth := by
            rintro ⟨_, _⟩ member
            cases all _ member with
            | intro blank quotation blankAfter element =>
                have risesElement := element.rises_depth
                  (fun repeats =>
                    distinct (.member all member blank quotation blankAfter repeats))
                  fun _ bare => ih inner (Nat.lt_succ_self inner) bare
                exact risesElement.behindKey blank quotation blankAfter
          have distinctKeys : ((parts.map Prod.snd).map Prod.fst).Nodup := by
            rw [List.map_map]
            by_contra repeated
            exact distinct (.object all repeated)
          have inside := rises_intercalate rises
          rw [Members.ofList_of_nodup distinctKeys, Value.depth, Value.depthOfEntries_eq,
            List.map_map]
          exact inside.bracketed rfl rfl

end TextGrammar.Json
