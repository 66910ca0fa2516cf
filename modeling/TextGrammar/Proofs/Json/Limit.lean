import TextGrammar.Proofs.Counting
import TextGrammar.Proofs.Json.Canonical
import TextGrammar.Proofs.Json.Nesting

/-!
# The limit on open brackets

What a reader finds does not depend on how many brackets it admits, as long as they are enough, and
with fewer it finds nothing.  How many are enough is told by the text that is consumed.

Brackets may be counted downwards from the limit or upwards to it.  Counted upwards in a machine
word, the count stays below the limit and cannot overflow.
-/

namespace TextGrammar.Json

open TextGrammar.Parser

variable {options : Options} {depth limit : Nat} {passed rest : List Char} {value : Value}

/-! ## The threshold of an element -/

theorem ElementBefore.mono (before : ElementBefore options depth passed value rest)
    (within : depth ≤ limit) : ElementBefore options limit passed value rest := by
  obtain ⟨front, text, back, split, blank, ⟨bare, unprolonged⟩, blankAfter, clear⟩ := before
  exact ⟨front, text, back, split, blank, ⟨bare.mono within, unprolonged⟩, blankAfter, clear⟩

/-- An element needs as many brackets as are open in it at once. -/
theorem ElementBefore.needs_mostOpen (before : ElementBefore options depth passed value rest) :
    mostOpen options.escapes passed ≤ depth ∧
      ElementBefore options (mostOpen options.escapes passed) passed value rest := by
  obtain ⟨front, text, back, rfl, blank, ⟨bare, unprolonged⟩, blankAfter, clear⟩ := before
  obtain ⟨height, within, rises, bare⟩ := bare.exists_height
  rw [(rises.amidBlanks blank blankAfter).mostOpen_eq]
  exact ⟨within, front, text, back, rfl, blank, ⟨bare, unprolonged⟩, blankAfter, clear⟩

theorem ElementBefore.limit_iff (before : ElementBefore options depth passed value rest) :
    ElementBefore options limit passed value rest ↔ mostOpen options.escapes passed ≤ limit := by
  constructor
  · intro beforeLimit
    exact beforeLimit.needs_mostOpen.1
  · intro within
    exact before.needs_mostOpen.2.mono within

/-- No value is deeper than its text. -/
theorem ElementBefore.depth_le_mostOpen (before : ElementBefore options depth passed value rest) :
    value.depth ≤ mostOpen options.escapes passed := by
  obtain ⟨core, bare⟩ := before.needs_mostOpen.2.element.exists_bare
  have fits := bare.fits_and_keysDistinct.1
  simp only [Value.fits, Bool.and_eq_true, decide_eq_true_eq] at fits
  exact fits.2

/-- A text in which no key is repeated is no deeper than its value. -/
theorem ElementBefore.depth_eq_mostOpen (before : ElementBefore options depth passed value rest)
    (distinct : ¬RepeatsKey options passed) :
    value.depth = mostOpen options.escapes passed := by
  have rises := before.element.rises_depth distinct fun _ bare => bare.rises_depth
  exact rises.mostOpen_eq.symm

/-! ## The threshold of a text -/

namespace Reader

/-- The same grammar with another limit on open brackets. -/
def withMaxDepth (reader : Reader) (limit : Nat) : Reader :=
  ⟨{ reader.options with maxDepth := limit }⟩

variable {reader : Reader} {text rest : String}

/-- The limit has no effect on the grammar but through the brackets that are handed to it. -/
theorem value_withMaxDepth (reader : Reader) (limit : Nat) :
    (reader.withMaxDepth limit).value = Json.value reader.options limit := by
  have unlimited (depth : Nat) :
      Json.value (reader.withMaxDepth limit).options depth = Json.value reader.options depth := by
    induction depth with
    | zero => rfl
    | succ depth ih =>
        rw [value_succ, value_succ, ih]
        rfl
  exact unlimited limit

theorem parseValue_withMaxDepth_eq_some_iff :
    (reader.withMaxDepth limit).parseValue text = some (value, rest) ↔
      ∃ passed, text.toList = passed ++ rest.toList ∧
        ElementBefore reader.options limit passed value rest.toList := by
  rw [parseValue_eq, value_withMaxDepth]
  exact (reads_value reader.options limit).parse_eq_some_iff

/-- What is found in a text is found with every limit that admits the brackets of the consumed text,
and with no other. -/
theorem parseValue_withMaxDepth {consumed : List Char}
    (split : text.toList = consumed ++ rest.toList)
    (before : ElementBefore reader.options depth consumed value rest.toList) (limit : Nat) :
    (reader.withMaxDepth limit).parseValue text =
      if mostOpen reader.options.escapes consumed ≤ limit then some (value, rest) else none := by
  split_ifs with within
  · exact parseValue_withMaxDepth_eq_some_iff.mpr ⟨consumed, split, before.limit_iff.mpr within⟩
  · cases found : (reader.withMaxDepth limit).parseValue text with
    | none => rfl
    | some pair =>
        -- With the larger of the two limits both findings are made, and so they are the same.
        obtain ⟨other, behind⟩ := pair
        obtain ⟨otherConsumed, otherSplit, otherBefore⟩ :=
          parseValue_withMaxDepth_eq_some_iff.mp found
        have here := parseValue_withMaxDepth_eq_some_iff.mpr
          ⟨consumed, split, before.mono (Nat.le_max_left depth limit)⟩
        have there := parseValue_withMaxDepth_eq_some_iff.mpr
          ⟨otherConsumed, otherSplit, otherBefore.mono (Nat.le_max_right depth limit)⟩
        rw [here, Option.some.injEq, Prod.mk.injEq] at there
        obtain ⟨rfl, rfl⟩ := there
        obtain rfl := List.append_cancel_right (split.symm.trans otherSplit)
        exact absurd (before.limit_iff.mp otherBefore) within

/-- If any limit will do for a text, then exactly those that admit the brackets that are open at
once in what is consumed. -/
theorem exists_threshold (reader : Reader) (text : String) :
    (∀ limit, (reader.withMaxDepth limit).parseValue text = none) ∨
      ∃ consumed rest value, text = consumed ++ rest ∧
        (∀ limit, (reader.withMaxDepth limit).parseValue text =
          if mostOpen reader.options.escapes consumed.toList ≤ limit then some (value, rest)
          else none) ∧
        value.depth ≤ mostOpen reader.options.escapes consumed.toList ∧
        (¬RepeatsKey reader.options consumed.toList →
          value.depth = mostOpen reader.options.escapes consumed.toList) ∧
        mostOpen reader.options.escapes consumed.toList ≤ text.toList.countP opens := by
  by_cases nothing : ∀ limit, (reader.withMaxDepth limit).parseValue text = none
  · exact .inl nothing
  · obtain ⟨limit, something⟩ := not_forall.mp nothing
    obtain ⟨⟨value, rest⟩, found⟩ := Option.ne_none_iff_exists'.mp something
    obtain ⟨passed, split, before⟩ := parseValue_withMaxDepth_eq_some_iff.mp found
    have inConsumed := mostOpen_le_countP reader.options.escapes passed
    refine .inr ⟨String.ofList passed, rest, value, ?_, ?_⟩
    · apply String.toList_injective
      simpa using split
    · rw [String.toList_ofList, split, List.countP_append]
      exact ⟨parseValue_withMaxDepth split before, before.depth_le_mostOpen,
        before.depth_eq_mostOpen, Nat.le_add_right_of_le inConsumed⟩

/-- As many brackets as are opened in a text are as good as any number. -/
theorem parseValue_withMaxDepth_of_countP_le {higher : Nat}
    (enough : text.toList.countP opens ≤ limit) (le : limit ≤ higher) :
    (reader.withMaxDepth limit).parseValue text = (reader.withMaxDepth higher).parseValue text := by
  cases exists_threshold reader text with
  | inl nothing => rw [nothing, nothing]
  | inr threshold =>
      obtain ⟨consumed, rest, value, -, found, -, -, within⟩ := threshold
      have admitted := Nat.le_trans within enough
      rw [found, found, if_pos admitted, if_pos (Nat.le_trans admitted le)]

/-- Under a repeated key an array is lost for null, but its brackets count. -/
theorem exists_depth_lt (reader : Reader) :
    ∃ text value, ∀ limit, (reader.withMaxDepth limit).parseValue text =
      if value.depth + 1 ≤ limit then some (value, "") else none := by
  have key : Quotation reader.options.escapes ['"', '"'] "" := .intro .nil
  have lost : Member reader.options 1 "\"\":[]".toList ("", .array []) :=
    .intro blanks_nil key blanks_nil (Bare.emptyArray blanks_nil).element
  have kept : Member reader.options 1 "\"\":null".toList ("", .null) :=
    .intro blanks_nil key blanks_nil Bare.null.element
  have object : Bare reader.options 2 "\x7b\"\":[],\"\":null\x7d".toList
      (.object (.ofList [("", .array []), ("", .null)])) :=
    Bare.object (List.cons_ne_nil (_, _) [(_, _)])
      (List.forall_mem_cons.mpr ⟨lost, List.forall_mem_singleton.mpr kept⟩)
  have alone : ElementBefore reader.options 2 "\x7b\"\":[],\"\":null\x7d".toList
      (.object (.ofList [("", .array []), ("", .null)])) "".toList :=
    object.element.before_of_delimited delimited_nil
  have deeper : Value.depth (.object (.ofList [("", .array []), ("", .null)])) + 1 =
      mostOpen reader.options.escapes "\x7b\"\":[],\"\":null\x7d".toList := by
    cases reader.options.escapes <;> decide
  refine ⟨"\x7b\"\":[],\"\":null\x7d", .object (.ofList [("", .array []), ("", .null)]),
    fun limit => ?_⟩
  rw [deeper]
  exact parseValue_withMaxDepth (List.append_nil _).symm alone limit

end Reader

/-! ## Counting upwards -/

/-- A value amid blanks where `opened` brackets are open, of `limit` that may be.  The count is a
machine word. -/
def countedValue (options : Options) (limit opened : USize) : Parser Value :=
  if opened < limit then
    let element := delay fun _ => countedValue options limit (opened + 1)
    amidBlanks options (choice (scalars options ++ containers options element))
  else
    amidBlanks options (choice (scalars options))
termination_by limit.toNat - opened.toNat
decreasing_by
  rename_i below
  rw [toNat_add_one below]
  exact Nat.sub_succ_lt_self _ _ (USize.lt_iff_toNat_lt.mp below)

/-- What is counted upwards to the limit is counted downwards from it. -/
theorem countedValue_eq (options : Options) (limit opened : USize) :
    countedValue options limit opened = Json.value options (limit.toNat - opened.toNat) := by
  fun_induction countedValue options limit opened with
  | case1 opened below element ih =>
      have less := USize.lt_iff_toNat_lt.mp below
      have counted : limit.toNat - opened.toNat = limit.toNat - (opened + 1).toNat + 1 := by
        rw [toNat_add_one below]
        omega
      rw [counted, value_succ, ← ih]
      rfl
  | case2 opened reached =>
      have full := USize.le_iff_toNat_le.mp (USize.not_lt.mp reached)
      rw [Nat.sub_eq_zero_of_le full, value_zero]

namespace Reader

/-- There is one limit for a text, if any will do: the number of brackets that are open at once in
what is consumed.  From there on the finding is the same, and below nothing is found.  The value is
as deep, unless a key is repeated, and there are no more brackets than opening ones in the text, so
that a count of them in a machine word does not overflow. -/
theorem parseValue_maxDepth (reader : Reader) :
    (∀ text, (∀ limit, (reader.withMaxDepth limit).parseValue text = none) ∨
      ∃ consumed rest value, text = consumed ++ rest ∧
        (∀ limit, (reader.withMaxDepth limit).parseValue text =
          if mostOpen reader.options.escapes consumed.toList ≤ limit then some (value, rest)
          else none) ∧
        value.depth ≤ mostOpen reader.options.escapes consumed.toList ∧
        (¬RepeatsKey reader.options consumed.toList →
          value.depth = mostOpen reader.options.escapes consumed.toList) ∧
        mostOpen reader.options.escapes consumed.toList ≤ text.toList.countP opens) ∧
    (∃ text value, ∀ limit, (reader.withMaxDepth limit).parseValue text =
      if value.depth + 1 ≤ limit then some (value, "") else none) ∧
    ∀ (limit : USize) text,
      (countedValue reader.options limit 0).parse text =
        (reader.withMaxDepth limit.toNat).parseValue text ∧
      (text.toList.countP opens ≤ limit.toNat → ∀ higher, limit.toNat ≤ higher →
        (reader.withMaxDepth limit.toNat).parseValue text =
          (reader.withMaxDepth higher).parseValue text) := by
  refine ⟨exists_threshold reader, exists_depth_lt reader, fun limit text => ⟨?_, ?_⟩⟩
  · rw [countedValue_eq, parseValue_eq, value_withMaxDepth, USize.toNat_zero, Nat.sub_zero]
  · intro enough higher le
    exact parseValue_withMaxDepth_of_countP_le enough le

end Reader

end TextGrammar.Json
