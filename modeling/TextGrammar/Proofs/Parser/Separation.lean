import TextGrammar.Proofs.Parser.Repetition

/-!
# Items with separators between them

An item list is one item and the successive matches of a separator with an item behind it.  Where
items and separators alternate in a text, every item is found if each of them can be read in its
place.  At an item that cannot be read the list ends, in front of the separator.
-/

namespace TextGrammar.Parser

universe u v w

variable {α : Type u} {β : Type v}

/-- A separator with the item behind it, of which the item counts. -/
def behindSeparator (separator : Parser β) (item : Parser α) : Parser α :=
  zipWith (fun _ value => value) separator item

theorem run_sepBy1 (item : Parser α) (separator : Parser β) (cursor : Cursor) :
    (sepBy1 item separator).run cursor =
      (item.run cursor).map fun (value, rest) =>
        (value :: ((behindSeparator separator item).gather [] rest).1,
          ((behindSeparator separator item).gather [] rest).2) := by
  cases found : item.run cursor with
  | none => simp [sepBy1, found]
  | some result => simp [sepBy1, found, behindSeparator]

/-- An item list is an item with the further items behind their separators, as many as there are. -/
theorem run_sepBy1_eq_some_iff {item : Parser α} {separator : Parser β} {start rest : Cursor}
    {values : List α} :
    (sepBy1 item separator).run start = some (values, rest) ↔
      ∃ first others middle, values = first :: others ∧ item.run start = some (first, middle) ∧
        Successive (behindSeparator separator item) middle others rest ∧
        (behindSeparator separator item).Stuck rest := by
  simp only [run_sepBy1, Option.map_eq_some_iff, Prod.exists, Prod.mk.injEq]
  constructor
  · rintro ⟨first, middle, found, rfl, rfl⟩
    obtain ⟨successive, stuck⟩ := gather_eq_iff.mp (Prod.eta _).symm
    exact ⟨first, _, middle, rfl, found, successive, stuck⟩
  · rintro ⟨first, others, middle, rfl, found, successive, stuck⟩
    have gathered := gather_eq_iff.mpr ⟨successive, stuck⟩
    exact ⟨first, middle, found, by rw [gathered], by rw [gathered]⟩

section Marks

variable {item : Parser α} {mark : Char}

@[simp] theorem run_behindSeparator_char (text : List Char) :
    (behindSeparator (char mark) item).run (.ofList (mark :: text)) = item.run (.ofList text) := by
  simp [behindSeparator]

theorem run_behindSeparator_of_clearOf {text : List Char} (clear : ClearOf (· == mark) text) :
    (behindSeparator (char mark) item).run (.ofList text) = none := by
  simp [behindSeparator, char, run_satisfy_of_clearOf clear]

theorem run_behindSeparator_eq_some_iff {start rest : Cursor} {value : α} :
    (behindSeparator (char mark) item).run start = some (value, rest) ↔
      ∃ text, start.remaining = mark :: text ∧ item.run (.ofList text) = some (value, rest) := by
  rw [← Cursor.ofList_remaining start]
  cases start.remaining with
  | nil => simp [behindSeparator]
  | cons character text =>
      by_cases same : character = mark
      · subst same
        simp
      · simp [behindSeparator, same]

/-- In front of any text that `Behind` holds of, `item` finds `result` in all of `text`. -/
def Gives (item : Parser α) (Behind : List Char → Prop) (text : List Char) (result : Option α) :
    Prop :=
  ∀ behind, Behind behind →
    item.run (.ofList (text ++ behind)) = result.map fun value => (value, .ofList behind)

variable {Behind : List Char → Prop} {ι : Type w} {text : ι → List Char} {result : ι → Option α}

/-- Of items that each follow a mark all are found, or as many as come before the first that cannot
be read. -/
theorem gather_marked (behindMark : ∀ text, Behind (mark :: text)) {ending : List Char}
    (ends : Behind ending) (clear : ClearOf (· == mark) ending) {entries : List ι}
    (gives : ∀ entry ∈ entries, item.Gives Behind (text entry) (result entry)) :
    ∃ values rest,
      (behindSeparator (char mark) item).gather []
          (.ofList (entries.flatMap (fun entry => mark :: text entry) ++ ending)) =
        (values, .ofList rest) ∧
      ((rest = ending ∧ entries.mapM result = some values) ∨
        (rest.head? = some mark ∧ entries.mapM result = none)) := by
  induction entries with
  | nil =>
      refine ⟨[], ending, ?_, .inl ⟨rfl, rfl⟩⟩
      exact gather_of_stuck (stuck_of_none (run_behindSeparator_of_clearOf clear))
  | cons entry entries ih =>
      obtain ⟨given, givenOthers⟩ := List.forall_mem_cons.mp gives
      obtain ⟨values, rest, gathered, outcome⟩ := ih givenOthers
      have behind : Behind (entries.flatMap (fun entry => mark :: text entry) ++ ending) := by
        cases entries with
        | nil => exact ends
        | cons next others => exact behindMark _
      rw [List.flatMap_cons, List.cons_append, List.cons_append, List.append_assoc,
        List.mapM_cons]
      generalize entries.flatMap (fun entry => mark :: text entry) ++ ending = others at *
      have found := given others behind
      rw [← run_behindSeparator_char] at found
      cases read : result entry with
      | none =>
          rw [read] at found
          exact ⟨[], _, gather_of_stuck (stuck_of_none found), .inr ⟨rfl, rfl⟩⟩
      | some value =>
          rw [read] at found
          have split : (Cursor.ofList (mark :: (text entry ++ others))).remaining =
              (mark :: text entry) ++ (Cursor.ofList others).remaining := rfl
          have shrinks := Cursor.size_lt_of_passed split (List.cons_ne_nil _ _)
          rw [gather_of_step found shrinks, gathered]
          refine ⟨value :: values, rest, rfl, ?_⟩
          rcases outcome with ⟨rfl, all⟩ | ⟨head, refused⟩
          · exact .inl ⟨rfl, by simp [all]⟩
          · exact .inr ⟨head, by simp [refused]⟩

/-- A text in which marks stand between its parts is the first part with the others behind marks. -/
theorem intercalate_cons {mark : ι} (first : List ι) (others : List (List ι)) :
    [mark].intercalate (first :: others) = first ++ others.flatMap (mark :: ·) := by
  induction others generalizing first with
  | nil => simp
  | cons second others ih => rw [List.intercalate_cons_cons, ih]; simp

/-- Of items with a mark between any two all are found, or as many as come before the first that
cannot be read. -/
theorem run_sepBy1_marked (behindMark : ∀ text, Behind (mark :: text)) {ending : List Char}
    (ends : Behind ending) (clear : ClearOf (· == mark) ending) {entries : List ι}
    (filled : entries ≠ [])
    (gives : ∀ entry ∈ entries, item.Gives Behind (text entry) (result entry)) :
    (∃ values, entries.mapM result = some values ∧
      (sepBy1 item (char mark)).run (.ofList ([mark].intercalate (entries.map text) ++ ending)) =
        some (values, .ofList ending)) ∨
    (entries.mapM result = none ∧ ∀ values rest,
      (sepBy1 item (char mark)).run (.ofList ([mark].intercalate (entries.map text) ++ ending)) =
        some (values, rest) → rest.remaining.head? = some mark) := by
  cases entries with
  | nil => exact absurd rfl filled
  | cons first others =>
      obtain ⟨given, givenOthers⟩ := List.forall_mem_cons.mp gives
      obtain ⟨values, rest, gathered, outcome⟩ := gather_marked behindMark ends clear givenOthers
      have behind : Behind (others.flatMap (fun entry => mark :: text entry) ++ ending) := by
        cases others with
        | nil => exact ends
        | cons next others => exact behindMark _
      rw [List.map_cons, intercalate_cons, List.flatMap_map, List.append_assoc, run_sepBy1,
        given _ behind, List.mapM_cons]
      cases read : result first with
      | none => exact .inr ⟨rfl, by simp⟩
      | some value =>
          simp only [Option.map_some, gathered]
          rcases outcome with ⟨rfl, all⟩ | ⟨head, refused⟩
          · exact .inl ⟨value :: values, by simp [all], rfl⟩
          · refine .inr ⟨by simp [refused], ?_⟩
            rintro _ _ ⟨⟩
            exact head

/-! ## What an item list passes -/

variable {Part : List Char → α → Prop} {After : List Char → Prop}

theorem Successive.marked
    (sound : ∀ start value rest, item.run start = some (value, rest) →
      ∃ passed, start.remaining = passed ++ rest.remaining ∧ Part passed value ∧
        After rest.remaining)
    {start rest : Cursor} {values : List α}
    (successive : Successive (behindSeparator (char mark) item) start values rest)
    (after : After start.remaining) :
    ∃ parts : List (List Char × α), (∀ part ∈ parts, Part part.1 part.2) ∧
      values = parts.map Prod.snd ∧
      start.remaining = (parts.map Prod.fst).flatMap (mark :: ·) ++ rest.remaining ∧
      After rest.remaining := by
  induction successive with
  | done cursor => exact ⟨[], by simp, rfl, rfl, after⟩
  | @step start next rest value values found _ _ ih =>
      obtain ⟨text, marked, foundItem⟩ := run_behindSeparator_eq_some_iff.mp found
      obtain ⟨passed, split, part, afterItem⟩ := sound _ _ _ foundItem
      obtain ⟨parts, all, rfl, splitOthers, afterOthers⟩ := ih afterItem
      refine ⟨(passed, value) :: parts, List.forall_mem_cons.mpr ⟨part, all⟩, rfl, ?_, afterOthers⟩
      rw [Cursor.remaining_ofList] at split
      rw [marked, split, splitOthers]
      simp

/-- An item list passes parts with marks between them, and what follows the last one follows it. -/
theorem exists_parts_of_run_sepBy1
    (sound : ∀ start value rest, item.run start = some (value, rest) →
      ∃ passed, start.remaining = passed ++ rest.remaining ∧ Part passed value ∧
        After rest.remaining)
    {start rest : Cursor} {values : List α}
    (found : (sepBy1 item (char mark)).run start = some (values, rest)) :
    ∃ parts : List (List Char × α), parts ≠ [] ∧ (∀ part ∈ parts, Part part.1 part.2) ∧
      values = parts.map Prod.snd ∧
      start.remaining = [mark].intercalate (parts.map Prod.fst) ++ rest.remaining ∧
      After rest.remaining := by
  obtain ⟨first, others, middle, rfl, foundFirst, successive, -⟩ :=
    run_sepBy1_eq_some_iff.mp found
  obtain ⟨passed, split, part, after⟩ := sound _ _ _ foundFirst
  obtain ⟨parts, all, rfl, splitOthers, after⟩ := successive.marked sound after
  refine ⟨(passed, first) :: parts, List.cons_ne_nil _ _, List.forall_mem_cons.mpr ⟨part, all⟩,
    rfl, ?_, after⟩
  rw [List.map_cons, intercalate_cons, List.append_assoc, split, splitOthers]

end Marks

end TextGrammar.Parser
