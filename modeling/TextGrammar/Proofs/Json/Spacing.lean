import TextGrammar.Proofs.Json.Stream

/-!
# Blanks between the tokens of a text

The text of a value is a sequence of tokens: brackets, commas, colons, keys, and the texts of
scalars.  Where blanks are put in front of some of them and behind them, the text still means the
value.  Each run of blanks belongs to the part next to it, and only between two brackets that have
nothing inside them there is no such part.
-/

namespace TextGrammar.Json

open TextGrammar.Parser

/-! ## Tokens -/

namespace Value

mutual

/-- The tokens of a value's text. -/
def tokens : Value → List (List Char)
  | null => [null.chars]
  | bool truth => [(bool truth).chars]
  | number value => [(number value).chars]
  | string text => [(string text).chars]
  | array [] => [['['], [']']]
  | array (item :: items) => ['['] :: (item.tokens ++ tokensOfItems items ++ [[']']])
  | object ⟨[]⟩ => [['\x7b'], ['\x7d']]
  | object ⟨(key, value) :: entries⟩ =>
      ['\x7b'] :: (quoted key :: [':'] :: value.tokens ++ tokensOfEntries entries ++ [['\x7d']])

/-- The tokens of items, each behind a comma. -/
def tokensOfItems : List Value → List (List Char)
  | [] => []
  | item :: items => [','] :: item.tokens ++ tokensOfItems items

/-- The tokens of entries, each behind a comma. -/
def tokensOfEntries : List (String × Value) → List (List Char)
  | [] => []
  | (key, value) :: entries =>
      [','] :: quoted key :: [':'] :: value.tokens ++ tokensOfEntries entries

end

/-- The tokens of an entry. -/
def entryTokens (entry : String × Value) : List (List Char) :=
  quoted entry.1 :: [':'] :: entry.2.tokens

theorem tokensOfItems_eq (items : List Value) :
    tokensOfItems items = (items.map tokens).flatMap ([','] :: ·) := by
  induction items with
  | nil => rfl
  | cons item items ih => simp [tokensOfItems, ih]

theorem tokensOfEntries_eq (entries : List (String × Value)) :
    tokensOfEntries entries = (entries.map entryTokens).flatMap ([','] :: ·) := by
  induction entries with
  | nil => rfl
  | cons entry entries ih => simp [tokensOfEntries, ih, entryTokens]

theorem tokens_array (items : List Value) :
    (array items).tokens = ['['] :: ([[',']].intercalate (items.map tokens) ++ [[']']]) := by
  cases items with
  | nil => rfl
  | cons item items => rw [tokens, tokensOfItems_eq, List.map_cons, intercalate_cons]

theorem tokens_object (members : Members Value) :
    (object members).tokens =
      ['\x7b'] :: ([[',']].intercalate (members.entries.map entryTokens) ++ [['\x7d']]) := by
  obtain ⟨entries⟩ := members
  cases entries with
  | nil => rfl
  | cons entry entries => simp [tokens, tokensOfEntries_eq, intercalate_cons, entryTokens]

/-- Groups of tokens with a mark between them make up the texts of the groups with the mark between
them. -/
theorem flatten_intercalate (mark : Char) (groups : List (List (List Char))) :
    ([[mark]].intercalate groups).flatten = [mark].intercalate (groups.map List.flatten) := by
  have marked (others : List (List (List Char))) :
      (others.flatMap ([mark] :: ·)).flatten = (others.map List.flatten).flatMap (mark :: ·) := by
    induction others with
    | nil => rfl
    | cons group others ih => simp [ih]
  cases groups with
  | nil => rfl
  | cons group others =>
      rw [intercalate_cons, List.flatten_append, marked, List.map_cons, intercalate_cons]

/-- The tokens one after another are the text. -/
theorem flatten_tokens (value : Value) : value.tokens.flatten = value.chars := by
  induction value using Value.induction with
  | null => simp [tokens]
  | bool truth => simp [tokens]
  | number value => simp [tokens]
  | string text => simp [tokens]
  | array items ih =>
      have texts : (items.map tokens).map List.flatten = items.map chars := by
        rw [List.map_map]
        exact List.map_congr_left ih
      rw [tokens_array, chars_array, List.flatten_cons, List.flatten_append, flatten_intercalate,
        texts]
      rfl
  | object members ih =>
      have texts : (members.entries.map entryTokens).map List.flatten =
          members.entries.map entryChars := by
        rw [List.map_map]
        refine List.map_congr_left fun entry member => ?_
        change quoted entry.1 ++ ':' :: entry.2.tokens.flatten = _
        rw [ih entry member, entryChars]
      rw [tokens_object, chars_object, List.flatten_cons, List.flatten_append, flatten_intercalate,
        texts]
      rfl

end Value

/-! ## Blanks between tokens -/

/-- The tokens one after another, each with blanks before and after it. -/
inductive Spaced (options : Options) : List (List Char) → List Char → Prop where
  | nil : Spaced options [] []
  | cons {before token after text : List Char} {tokens : List (List Char)} :
      Blanks options before → Blanks options after → Spaced options tokens text →
      Spaced options (token :: tokens) (before ++ (token ++ (after ++ text)))

variable {options : Options} {depth : Nat} {text : List Char}

namespace Spaced

/-- Where the tokens are divided the text can be. -/
theorem exists_append {left right : List (List Char)}
    (spaced : Spaced options (left ++ right) text) :
    ∃ front back, text = front ++ back ∧ Spaced options left front ∧ Spaced options right back := by
  induction left generalizing text with
  | nil => exact ⟨[], text, rfl, .nil, spaced⟩
  | cons token left ih =>
      rw [List.cons_append] at spaced
      cases spaced with
      | cons blank blankAfter spaced =>
          obtain ⟨front, back, rfl, spacedLeft, spacedRight⟩ := ih spaced
          exact ⟨_, back, by simp only [List.append_assoc], .cons blank blankAfter spacedLeft,
            spacedRight⟩

/-- A single token amid blanks. -/
theorem exists_of_singleton {token : List Char} (spaced : Spaced options [token] text) :
    ∃ before after, text = before ++ (token ++ after) ∧ Blanks options before ∧
      Blanks options after := by
  cases spaced with
  | cons blank blankAfter spaced =>
      cases spaced
      exact ⟨_, _, by rw [List.append_nil], blank, blankAfter⟩

/-- A scalar. -/
theorem element_of_bare {token : List Char} {value : Value}
    (spaced : Spaced options [token] text) (bare : Bare options depth token value) :
    Element options depth text value := by
  obtain ⟨before, after, rfl, blank, blankAfter⟩ := spaced.exists_of_singleton
  exact .intro blank bare blankAfter

end Spaced

/-! ## Containers -/

/-- Blanks around a part belong to it. -/
structure Padded {α : Type} (options : Options) (Part : List Char → α → Prop) : Prop where
  prepend : ∀ {blanks text value}, Blanks options blanks → Part text value →
    Part (blanks ++ text) value
  append : ∀ {blanks text value}, Blanks options blanks → Part text value →
    Part (text ++ blanks) value

theorem padded_element : Padded options (Element options depth) :=
  ⟨fun blank element => element.prepend_blanks blank,
    fun blank element => element.append_blanks blank⟩

theorem padded_member : Padded options (Member options depth) :=
  ⟨fun blank isMember => isMember.prepend_blanks blank,
    fun blank isMember => isMember.append_blanks blank⟩

section Containers

variable {α : Type} {Part : List Char → α → Prop} {tokensOf : α → List (List Char)}

/-- A part and further ones behind commas, with the blanks that follow, are parts with commas
between them. -/
theorem Spaced.exists_parts (padded : Padded options Part) {first : α} {others : List α}
    {front back : List Char} (isPart : Part front first)
    (areParts : ∀ item ∈ others, ∀ text, Spaced options (tokensOf item) text → Part text item)
    (spaced : Spaced options ((others.map tokensOf).flatMap ([','] :: ·)) text)
    (blank : Blanks options back) :
    ∃ parts : List (List Char × α), parts ≠ [] ∧ (∀ part ∈ parts, Part part.1 part.2) ∧
      parts.map Prod.snd = first :: others ∧
      [','].intercalate (parts.map Prod.fst) = front ++ (text ++ back) := by
  -- Blanks before a comma go to the part in front of it, which is then complete; those after it go
  -- to the next part, which takes the place of the first one in the induction.
  induction others generalizing first front text with
  | nil =>
      cases spaced
      exact ⟨[(front ++ back, first)], List.cons_ne_nil _ _,
        List.forall_mem_singleton.mpr (padded.append blank isPart), rfl, by simp⟩
  | cons next others ih =>
      obtain ⟨isNext, areOthers⟩ := List.forall_mem_cons.mp areParts
      rw [List.map_cons, List.flatMap_cons, List.cons_append] at spaced
      cases spaced with
      | @cons before _ after _ _ blankBefore blankAfter spaced =>
          obtain ⟨core, behind, rfl, spacedNext, spacedOthers⟩ := spaced.exists_append
          obtain ⟨parts, filled, all, values, joined⟩ :=
            ih (padded.prepend blankAfter (isNext core spacedNext)) areOthers spacedOthers
          obtain ⟨part, parts, rfl⟩ := List.exists_cons_of_ne_nil filled
          refine ⟨(front ++ before, first) :: part :: parts, List.cons_ne_nil _ _,
            List.forall_mem_cons.mpr ⟨padded.append blankBefore isPart, all⟩, ?_, ?_⟩
          · rw [List.map_cons, values]
          · rw [List.map_cons, List.map_cons, List.intercalate_cons_cons, ← List.map_cons, joined]
            simp only [List.append_assoc]

/-- The tokens of a container amid blanks are a container amid blanks. -/
theorem Spaced.exists_bracketed (padded : Padded options Part) {opening closing : Char}
    {items : List α}
    (areParts : ∀ item ∈ items, ∀ text, Spaced options (tokensOf item) text → Part text item)
    (spaced : Spaced options
      ([opening] :: ([[',']].intercalate (items.map tokensOf) ++ [[closing]])) text) :
    ∃ before core after, text = before ++ (core ++ after) ∧ Blanks options before ∧
      Bracketed options opening closing Part core items ∧ Blanks options after := by
  cases spaced with
  | @cons before _ inside _ _ blankBefore blankInside spaced =>
      obtain ⟨middle, back, rfl, spacedItems, spacedClosing⟩ := spaced.exists_append
      obtain ⟨insideToo, after, rfl, blankInsideToo, blankAfter⟩ :=
        spacedClosing.exists_of_singleton
      refine ⟨before, opening :: (inside ++ (middle ++ insideToo) ++ [closing]), after, by simp,
        blankBefore, ?_, blankAfter⟩
      cases items with
      | nil =>
          cases spacedItems
          exact .empty (blankInside.append blankInsideToo)
      | cons first others =>
          obtain ⟨isFirst, areOthers⟩ := List.forall_mem_cons.mp areParts
          rw [List.map_cons, intercalate_cons] at spacedItems
          obtain ⟨core, behind, rfl, spacedFirst, spacedOthers⟩ := spacedItems.exists_append
          obtain ⟨parts, filled, all, values, joined⟩ := spacedOthers.exists_parts padded
            (padded.prepend blankInside (isFirst core spacedFirst)) areOthers blankInsideToo
          have whole : inside ++ (core ++ behind ++ insideToo) =
              [','].intercalate (parts.map Prod.fst) := by
            rw [joined]
            simp only [List.append_assoc]
          rw [whole, ← values]
          exact .filled filled all

end Containers

/-! ## Values -/

/-- The tokens of an entry amid blanks are a member if those of its value are an element. -/
theorem Spaced.member (escapes : options.escapes = .json) {entry : String × Value}
    (elements : ∀ text, Spaced options entry.2.tokens text →
      Element options depth text entry.2)
    (spaced : Spaced options (Value.entryTokens entry) text) :
    Member options depth text entry := by
  obtain ⟨key, value⟩ := entry
  have quotation : Quotation options.escapes (quoted key) key := by
    rw [escapes]
    exact quotation_quoted key
  cases spaced with
  | cons blank blankAfterKey spaced =>
      cases spaced with
      | cons blankBeforeColon blankAfterColon spaced =>
          have element := (elements _ spaced).prepend_blanks blankAfterColon
          have isMember := Member.intro blank quotation
            (blankAfterKey.append blankBeforeColon) element
          simpa only [List.append_assoc, List.singleton_append] using isMember

/-- The tokens of a value that fits, each amid blanks, are an element that means it. -/
theorem Spaced.element (escapes : options.escapes = .json) {value : Value}
    (fits : value.fits depth = true) (distinct : value.keysDistinct = true)
    (spaced : Spaced options value.tokens text) : Element options depth text value := by
  induction value using Value.induction generalizing depth text with
  | null => exact spaced.element_of_bare .null
  | bool truth =>
      refine spaced.element_of_bare (bare_bool_iff.mpr ?_)
      cases truth <;> rfl
  | number number =>
      have finite : number.isFinite = true := (Value.fits_iff.mp fits).1
      obtain ⟨decimal, numeral, same⟩ := Binary64.exists_numeral_chars finite
      exact spaced.element_of_bare (bare_number_iff.mpr ⟨decimal, numeral, same, finite⟩)
  | string content =>
      refine spaced.element_of_bare (bare_string_iff.mpr ?_)
      rw [escapes]
      exact quotation_quoted content
  | array items ih =>
      have distinctItems := Value.keysDistinct_array_iff.mp distinct
      cases depth with
      | zero =>
          rw [Value.fits_zero_eq_false (Value.depth_array_pos items)] at fits
          exact Bool.noConfusion fits
      | succ depth =>
          rw [Value.fits_array, List.all_eq_true] at fits
          rw [Value.tokens_array] at spaced
          obtain ⟨before, core, after, rfl, blank, bracketed, blankAfter⟩ :=
            spaced.exists_bracketed padded_element fun item member text spaced =>
              ih item member (fits item member) (distinctItems item member) spaced
          exact .intro blank (bare_array_iff.mpr bracketed) blankAfter
  | object members ih =>
      obtain ⟨distinctKeys, distinctParts⟩ := Value.keysDistinct_object_iff.mp distinct
      cases depth with
      | zero =>
          rw [Value.fits_zero_eq_false (Value.depth_object_pos members)] at fits
          exact Bool.noConfusion fits
      | succ depth =>
          rw [Value.fits_object, List.all_eq_true] at fits
          rw [Value.tokens_object] at spaced
          obtain ⟨before, core, after, rfl, blank, bracketed, blankAfter⟩ :=
            spaced.exists_bracketed padded_member fun entry member text spaced =>
              spaced.member escapes fun text spaced =>
                ih entry member (fits entry member) (distinctParts entry member) spaced
          have bare := bare_object_iff.mpr ⟨_, bracketed, rfl⟩
          rw [Members.ofList_of_nodup distinctKeys] at bare
          exact .intro blank bare blankAfter

/-! ## Reading -/

namespace Reader

/-- Blanks in front of a text make no difference. -/
theorem parseValue_prepend_blanks (reader : Reader) {blanks : String} (text : String)
    (blank : Blanks reader.options blanks.toList) :
    reader.parseValue (blanks ++ text) = reader.parseValue text := by
  have skips := (readsParts_value reader.options reader.options.maxDepth).skips_blanks
  have same : (blanks ++ text).toList.dropWhile reader.options.isBlank =
      text.toList.dropWhile reader.options.isBlank := by
    rw [String.toList_append]
    exact List.dropWhile_append_of_pos blank
  simp only [parseValue_eq, Parser.parse, Reader.value, Cursor.ofText_eq_ofList]
  rw [← skips (blanks ++ text).toList, same, skips]

/-- The tokens of a value make up its text.  With any blanks before and after each of them the text
still gives the value, with all blanks at the end, in front of what begins with no blank and, if the
value is a number and no blank is at the end, with nothing that prolongs a number.  Blanks in front
of any text whatever make no difference. -/
theorem parseValue_spaced (reader : Reader) :
    (∀ value : Value, value.tokens.flatten = value.render.toList) ∧
    (reader.options.escapes = .json → ∀ (value : Value) (text tail : String),
      Readable reader.options value → Spaced reader.options value.tokens text.toList →
      ClearOf reader.options.isBlank tail.toList →
      (value.kind = .number →
        (∀ last, text.toList.getLast? = some last → reader.options.isBlank last = false) →
        ClearOf prolongs tail.toList) →
      reader.parseValue (text ++ tail) = some (value, tail)) ∧
    ∀ blanks text : String, Blanks reader.options blanks.toList →
      reader.parseValue (blanks ++ text) = reader.parseValue text := by
  refine ⟨fun value => ?_, ?_, fun _ text => reader.parseValue_prepend_blanks text⟩
  · rw [Value.toList_render, Value.flatten_tokens]
  · intro escapes value text tail readable spaced clear ends
    have element := spaced.element escapes readable.fits readable.keysDistinct
    refine reader.parseValue_eq_some_iff.mpr ⟨text.toList, String.toList_append, ?_⟩
    refine element.before_of_kind clear fun kind last isLast digit => ends kind ?_
    -- A digit is no blank.
    intro other isOther
    obtain rfl := Option.some.inj (isLast.symm.trans isOther)
    exact not_isBlank_of_not_isWhiteSpace (not_isWhiteSpace_of_isDigit digit) _

/-- An empty array in an object, with blanks everywhere; a zero with a blank in front only, in front
of a sign; and a line feed in front of a bracket. -/
theorem parseValue_spaced_object :
    Reader.parseValue {} ("\t\x7b \"k\"\n:\r[ ] \x7d\n" ++ "]") =
      some (.object ⟨[("k", .array [])]⟩, "]") ∧
    Reader.parseValue {} (" 0" ++ "-") = some (.number (.zero false), "-") ∧
    Reader.parseValue {} ("\n" ++ "]") = Reader.parseValue {} "]" := by
  obtain ⟨-, spacedTexts, blanksInFront⟩ := parseValue_spaced {}
  have gap (blank : Char) (isBlank : Options.isBlank {} blank = true) : Blanks {} [blank] :=
    blanks_singleton.mpr isBlank
  refine ⟨?_, ?_, blanksInFront _ _ (gap '\n' rfl)⟩
  · have spaced : Spaced {} (Value.object ⟨[("k", .array [])]⟩).tokens
        "\t\x7b \"k\"\n:\r[ ] \x7d\n".toList :=
      .cons (gap '\t' rfl) (gap ' ' rfl) <| .cons blanks_nil (gap '\n' rfl) <|
        .cons blanks_nil (gap '\r' rfl) <| .cons blanks_nil (gap ' ' rfl) <|
        .cons blanks_nil (gap ' ' rfl) <| .cons blanks_nil (gap '\n' rfl) .nil
    exact spacedTexts rfl _ _ _ ⟨rfl, by decide, by decide⟩ spaced (clearOf_cons.mpr rfl)
      fun isNumber => absurd isNumber (by decide)
  · have spaced : Spaced {} (Value.number (.zero false)).tokens " 0".toList :=
      .cons (gap ' ' rfl) blanks_nil .nil
    exact spacedTexts rfl _ _ _ ⟨rfl, rfl, Nat.zero_le _⟩ spaced (clearOf_cons.mpr rfl)
      fun _ _ => clearOf_cons.mpr rfl

end Reader

end TextGrammar.Json
