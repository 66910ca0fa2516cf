import TextGrammar.Json.Value

/-!
# What holds throughout a value

Induction over values has one case for each kind, and for a container it assumes the statement of
every part.  Tests that are made on a value and all its parts are walks of one form.
-/

namespace TextGrammar.Json.Value

/-- What holds of scalars, and of containers if it holds of their parts, holds of all values. -/
@[elab_as_elim]
theorem induction {motive : Value → Prop} (null : motive null) (bool : ∀ truth, motive (bool truth))
    (number : ∀ value, motive (number value)) (string : ∀ text, motive (string text))
    (array : ∀ items, (∀ item ∈ items, motive item) → motive (array items))
    (object : ∀ members : Members Value, (∀ entry ∈ members.entries, motive entry.2) →
      motive (object members))
    (value : Value) : motive value :=
  Value.rec (motive_1 := motive) (motive_2 := fun items => ∀ item ∈ items, motive item)
    (motive_3 := fun members => ∀ entry ∈ members.entries, motive entry.2)
    (motive_4 := fun entries => ∀ entry ∈ entries, motive entry.2)
    (motive_5 := fun entry => motive entry.2)
    null bool number string array object (by simp)
    (fun _ _ head tail => List.forall_mem_cons.mpr ⟨head, tail⟩) (fun _ all => all) (by simp)
    (fun _ _ head tail => List.forall_mem_cons.mpr ⟨head, tail⟩) (fun _ _ holds => holds) value

/-! ## Tests of all parts -/

mutual

/-- Whether a test is passed by a value and by all its parts. -/
def everywhere (test : Value → Bool) : Value → Bool
  | null => test null
  | bool truth => test (bool truth)
  | number value => test (number value)
  | string text => test (string text)
  | array items => test (array items) && everywhereInItems test items
  | object ⟨entries⟩ => test (object ⟨entries⟩) && everywhereInEntries test entries

/-- Whether a test is passed by all parts of all items. -/
def everywhereInItems (test : Value → Bool) : List Value → Bool
  | [] => true
  | item :: items => item.everywhere test && everywhereInItems test items

/-- Whether a test is passed by all parts of all members' values. -/
def everywhereInEntries (test : Value → Bool) : List (String × Value) → Bool
  | [] => true
  | (_, value) :: entries => value.everywhere test && everywhereInEntries test entries

end

section Everywhere

variable {test : Value → Bool}

theorem everywhereInItems_iff {items : List Value} :
    everywhereInItems test items = true ↔ ∀ item ∈ items, item.everywhere test = true := by
  induction items with
  | nil => simp [everywhereInItems]
  | cons item items ih => rw [everywhereInItems, Bool.and_eq_true, ih, List.forall_mem_cons]

theorem everywhereInEntries_iff {entries : List (String × Value)} :
    everywhereInEntries test entries = true ↔
      ∀ entry ∈ entries, entry.2.everywhere test = true := by
  induction entries with
  | nil => simp [everywhereInEntries]
  | cons entry entries ih => rw [everywhereInEntries, Bool.and_eq_true, ih, List.forall_mem_cons]

theorem everywhere_array_iff {items : List Value} :
    (array items).everywhere test = true ↔
      test (array items) = true ∧ ∀ item ∈ items, item.everywhere test = true := by
  rw [everywhere, Bool.and_eq_true, everywhereInItems_iff]

theorem everywhere_object_iff {members : Members Value} :
    (object members).everywhere test = true ↔
      test (object members) = true ∧
        ∀ entry ∈ members.entries, entry.2.everywhere test = true := by
  rw [everywhere, Bool.and_eq_true, everywhereInEntries_iff]

end Everywhere

/-- Whether all numbers in a value are finite. -/
def numbersFinite : Value → Bool :=
  everywhere fun
    | number value => value.isFinite
    | _ => true

/-- Whether no object in a value has a key twice, as is so when members were stored one after
another. -/
def keysDistinct : Value → Bool :=
  everywhere fun
    | object members => decide members.keys.Nodup
    | _ => true

@[simp] theorem numbersFinite_number {value : Binary64} :
    (number value).numbersFinite = value.isFinite := rfl

@[simp] theorem numbersFinite_array_iff {items : List Value} :
    (array items).numbersFinite = true ↔ ∀ item ∈ items, item.numbersFinite = true := by
  simp [numbersFinite, everywhere_array_iff]

@[simp] theorem numbersFinite_object_iff {members : Members Value} :
    (object members).numbersFinite = true ↔
      ∀ entry ∈ members.entries, entry.2.numbersFinite = true := by
  simp only [numbersFinite, everywhere_object_iff, true_and]

@[simp] theorem keysDistinct_array_iff {items : List Value} :
    (array items).keysDistinct = true ↔ ∀ item ∈ items, item.keysDistinct = true := by
  simp [keysDistinct, everywhere_array_iff]

@[simp] theorem keysDistinct_object_iff {members : Members Value} :
    (object members).keysDistinct = true ↔
      members.keys.Nodup ∧ ∀ entry ∈ members.entries, entry.2.keysDistinct = true := by
  simp only [keysDistinct, everywhere_object_iff, decide_eq_true_eq]

/-! ## Depth -/

theorem depthOfItems_le_iff {items : List Value} {limit : Nat} :
    depthOfItems items ≤ limit ↔ ∀ item ∈ items, item.depth ≤ limit := by
  induction items with
  | nil => simp [depthOfItems]
  | cons item items ih => rw [depthOfItems, Nat.max_le, ih, List.forall_mem_cons]

theorem depthOfEntries_le_iff {entries : List (String × Value)} {limit : Nat} :
    depthOfEntries entries ≤ limit ↔ ∀ entry ∈ entries, entry.2.depth ≤ limit := by
  induction entries with
  | nil => simp [depthOfEntries]
  | cons entry entries ih => rw [depthOfEntries, Nat.max_le, ih, List.forall_mem_cons]

theorem depth_array_le_iff {items : List Value} {limit : Nat} :
    (array items).depth ≤ limit + 1 ↔ ∀ item ∈ items, item.depth ≤ limit := by
  rw [depth, Nat.add_le_add_iff_right, depthOfItems_le_iff]

theorem depth_object_le_iff {members : Members Value} {limit : Nat} :
    (object members).depth ≤ limit + 1 ↔
      ∀ entry ∈ members.entries, entry.2.depth ≤ limit := by
  rw [depth, Nat.add_le_add_iff_right, depthOfEntries_le_iff]

/-- A container has a depth. -/
theorem depth_array_pos (items : List Value) : 0 < (array items).depth := by
  rw [depth]
  exact Nat.succ_pos _

theorem depth_object_pos (members : Members Value) : 0 < (object members).depth := by
  obtain ⟨entries⟩ := members
  rw [depth]
  exact Nat.succ_pos _

end TextGrammar.Json.Value
