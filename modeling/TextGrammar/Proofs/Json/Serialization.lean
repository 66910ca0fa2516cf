import TextGrammar.Json.Serializer
import TextGrammar.Proofs.Json.RoundTrip

/-!
# The tree of a value and its text

A value leaves the library in two ways: as text, and through a serializer.  A serializer that builds
trees makes of it the same value, with null in place of the numbers that are not finite.  The text
of that tree is always a document that means it.  The text of the value itself is one exactly if all
its numbers are finite, and then it means the tree, too.
-/

namespace TextGrammar.Json

/-! ## Changing numbers -/

/-- Change the values and leave the keys and their order. -/
def Members.mapValues {α β : Type} (change : α → β) (members : Members α) : Members β :=
  ⟨members.entries.map fun entry => (entry.1, change entry.2)⟩

@[simp] theorem Members.keys_mapValues {α β : Type} (change : α → β) (members : Members α) :
    (members.mapValues change).keys = members.keys := by
  simp [mapValues, keys]

theorem Members.mapValues_eq_self {α : Type} {change : α → α} {members : Members α}
    (same : ∀ entry ∈ members.entries, change entry.2 = entry.2) :
    members.mapValues change = members := by
  have entries : (members.entries.map fun entry => (entry.1, change entry.2)) =
      members.entries.map id := by
    apply List.map_congr_left
    intro entry member
    rw [same entry member, id]
  rw [mapValues, entries, List.map_id]

namespace Value

mutual

/-- Put a value in place of every number, and leave everything else as it is. -/
def replaceNumbers (change : Binary64 → Value) : Value → Value
  | null => null
  | bool truth => bool truth
  | number value => change value
  | string text => string text
  | array items => array (replaceNumbersInItems change items)
  | object ⟨entries⟩ => object ⟨replaceNumbersInEntries change entries⟩

/-- Put a value in place of every number in the items. -/
def replaceNumbersInItems (change : Binary64 → Value) : List Value → List Value
  | [] => []
  | item :: items => item.replaceNumbers change :: replaceNumbersInItems change items

/-- Put a value in place of every number in the members' values. -/
def replaceNumbersInEntries (change : Binary64 → Value) :
    List (String × Value) → List (String × Value)
  | [] => []
  | (key, value) :: entries =>
      (key, value.replaceNumbers change) :: replaceNumbersInEntries change entries

end

section ReplaceNumbers

variable {change : Binary64 → Value}

theorem replaceNumbers_array (items : List Value) :
    (array items).replaceNumbers change = array (items.map (replaceNumbers change)) := by
  rw [replaceNumbers]
  congr 1
  induction items with
  | nil => rfl
  | cons item items ih => rw [replaceNumbersInItems, ih, List.map_cons]

theorem replaceNumbers_object (members : Members Value) :
    (object members).replaceNumbers change =
      object (members.mapValues (replaceNumbers change)) := by
  cases members with
  | mk entries =>
      rw [replaceNumbers, Members.mapValues]
      congr 2
      induction entries with
      | nil => rfl
      | cons entry entries ih => rw [replaceNumbersInEntries, ih, List.map_cons]

/-- All numbers are finite that are put in place of others. -/
theorem numbersFinite_replaceNumbers
    (finite : ∀ number, (change number).numbersFinite = true) (value : Value) :
    (value.replaceNumbers change).numbersFinite = true := by
  induction value using Value.induction with
  | null => rfl
  | bool truth => rfl
  | number number => exact finite number
  | string text => rfl
  | array items ih =>
      rw [replaceNumbers_array, numbersFinite_array_iff, List.forall_mem_map]
      exact ih
  | object members ih =>
      rw [replaceNumbers_object, numbersFinite_object_iff, Members.mapValues, List.forall_mem_map]
      exact ih

/-- The keys are what they were. -/
theorem keysDistinct_replaceNumbers (distinctNew : ∀ number, (change number).keysDistinct = true)
    {value : Value} (distinct : value.keysDistinct = true) :
    (value.replaceNumbers change).keysDistinct = true := by
  induction value using Value.induction with
  | null => rfl
  | bool truth => rfl
  | number number => exact distinctNew number
  | string text => rfl
  | array items ih =>
      have distinctItems := keysDistinct_array_iff.mp distinct
      rw [replaceNumbers_array, keysDistinct_array_iff, List.forall_mem_map]
      exact fun item member => ih item member (distinctItems item member)
  | object members ih =>
      obtain ⟨distinctKeys, distinctParts⟩ := keysDistinct_object_iff.mp distinct
      rw [replaceNumbers_object, keysDistinct_object_iff, Members.keys_mapValues,
        Members.mapValues, List.forall_mem_map]
      exact ⟨distinctKeys, fun entry member => ih entry member (distinctParts entry member)⟩

/-- A value gets no deeper by scalars in place of its numbers. -/
theorem depth_replaceNumbers_le (scalar : ∀ number, (change number).depth = 0) {value : Value}
    {limit : Nat} (shallow : value.depth ≤ limit) :
    (value.replaceNumbers change).depth ≤ limit := by
  induction value using Value.induction generalizing limit with
  | null => exact Nat.zero_le _
  | bool truth => exact Nat.zero_le _
  | number number =>
      rw [replaceNumbers, scalar]
      exact Nat.zero_le _
  | string text => exact Nat.zero_le _
  | array items ih =>
      cases limit with
      | zero => exact absurd shallow (Nat.not_le_of_lt (depth_array_pos items))
      | succ limit =>
          rw [depth_array_le_iff] at shallow
          rw [replaceNumbers_array, depth_array_le_iff, List.forall_mem_map]
          exact fun item member => ih item member (shallow item member)
  | object members ih =>
      cases limit with
      | zero => exact absurd shallow (Nat.not_le_of_lt (depth_object_pos members))
      | succ limit =>
          rw [depth_object_le_iff] at shallow
          rw [replaceNumbers_object, depth_object_le_iff, Members.mapValues, List.forall_mem_map]
          exact fun entry member => ih entry member (shallow entry member)

/-- Where the numbers that occur are left as they are the value is. -/
theorem replaceNumbers_eq_self
    (kept : ∀ number, number.isFinite = true → change number = .number number) {value : Value}
    (finite : value.numbersFinite = true) : value.replaceNumbers change = value := by
  induction value using Value.induction with
  | null => rfl
  | bool truth => rfl
  | number number => exact kept number finite
  | string text => rfl
  | array items ih =>
      rw [numbersFinite_array_iff] at finite
      rw [replaceNumbers_array,
        List.map_congr_left fun item member => ih item member (finite item member), List.map_id']
  | object members ih =>
      rw [numbersFinite_object_iff] at finite
      rw [replaceNumbers_object,
        Members.mapValues_eq_self fun entry member => ih entry member (finite entry member)]

end ReplaceNumbers

/-- A number as a value, or null if it is not finite. -/
def finiteOrNull (number : Binary64) : Value :=
  if number.isFinite then .number number else .null

theorem numbersFinite_finiteOrNull (number : Binary64) :
    (finiteOrNull number).numbersFinite = true := by
  cases number <;> rfl

theorem keysDistinct_finiteOrNull (number : Binary64) :
    (finiteOrNull number).keysDistinct = true := by
  cases number <;> rfl

theorem depth_finiteOrNull (number : Binary64) : (finiteOrNull number).depth = 0 := by
  cases number <;> simp [finiteOrNull, Binary64.isFinite, depth]

theorem finiteOrNull_of_isFinite (number : Binary64) (finite : number.isFinite = true) :
    finiteOrNull number = .number number :=
  if_pos finite

end Value

/-! ## Building trees -/

/-- What is asked of a serializer that builds trees.  It keeps what it is given, members in their
order, and has no place for numbers that are not finite.  How it treats a repeated key is left
open. -/
structure BuildsTrees (serializer : Serializer Value) : Prop where
  null : serializer.null = .null
  bool : ∀ truth, serializer.bool truth = .bool truth
  number : ∀ number, number.isFinite = true → serializer.number number = .number number
  notFinite : ∀ number, number.isFinite = false → serializer.number number = .null
  string : ∀ text, serializer.string text = .string text
  array : ∀ items, serializer.array items = .array items
  object : ∀ entries, (entries.map Prod.fst).Nodup → serializer.object entries = .object ⟨entries⟩

theorem buildsTrees_tree : BuildsTrees .tree where
  null := rfl
  bool _ := rfl
  number _ finite := if_pos finite
  notFinite _ infinite := if_neg (Bool.eq_false_iff.mp infinite)
  string _ := rfl
  array _ := rfl
  object _ distinct := congrArg Value.object (Members.ofList_of_nodup distinct)

namespace Value

universe u

variable {β : Type u} {serializer : Serializer β}

theorem serialize_array (items : List Value) :
    (array items).serialize serializer = serializer.array (items.map (serialize serializer)) := by
  rw [serialize]
  congr 1
  induction items with
  | nil => rfl
  | cons item items ih => rw [serializeItems, ih, List.map_cons]

theorem serialize_object (members : Members Value) :
    (object members).serialize serializer =
      serializer.object
        (members.entries.map fun entry => (entry.1, entry.2.serialize serializer)) := by
  cases members with
  | mk entries =>
      rw [serialize]
      congr 1
      induction entries with
      | nil => rfl
      | cons entry entries ih => rw [serializeEntries, ih, List.map_cons]

/-- The tree of a value is the value with null in place of the numbers that are not finite. -/
theorem serialize_eq_replaceNumbers {serializer : Serializer Value}
    (builds : BuildsTrees serializer) {value : Value} (distinct : value.keysDistinct = true) :
    value.serialize serializer = value.replaceNumbers finiteOrNull := by
  induction value using Value.induction with
  | null => exact builds.null
  | bool truth => exact builds.bool truth
  | string text => exact builds.string text
  | number number =>
      cases finite : number.isFinite with
      | true => exact (builds.number number finite).trans (if_pos finite).symm
      | false =>
          have infinite : ¬number.isFinite = true := Bool.eq_false_iff.mp finite
          exact (builds.notFinite number finite).trans (if_neg infinite).symm
  | array items ih =>
      have distinctItems := keysDistinct_array_iff.mp distinct
      rw [serialize_array, builds.array, replaceNumbers_array,
        List.map_congr_left fun item member => ih item member (distinctItems item member)]
  | object members ih =>
      obtain ⟨distinctKeys, distinctParts⟩ := keysDistinct_object_iff.mp distinct
      have entries : (members.entries.map fun entry => (entry.1, entry.2.serialize serializer)) =
          (members.mapValues (replaceNumbers finiteOrNull)).entries := by
        apply List.map_congr_left
        intro entry member
        rw [ih entry member (distinctParts entry member)]
      have distinctEntries :
          ((members.mapValues (replaceNumbers finiteOrNull)).entries.map Prod.fst).Nodup := by
        change (members.mapValues (replaceNumbers finiteOrNull)).keys.Nodup
        rw [Members.keys_mapValues]
        exact distinctKeys
      rw [serialize_object, entries, builds.object _ distinctEntries, replaceNumbers_object]

end Value

/-! ## Trees and texts -/

/-- The text of a value that is not too deep is read as the value if all its numbers are finite, and
not at all otherwise. -/
theorem Reader.parseDocument_of_shallow (reader : Reader) (escapes : reader.options.escapes = .json)
    {value : Value} (distinct : value.keysDistinct = true)
    (shallow : value.depth ≤ reader.options.maxDepth) :
    reader.parseDocument value.render =
      if value.numbersFinite = true then .ok value else .error .noValue := by
  rw [parseDocument_eq, parseValue_render reader escapes distinct, Option.guard, Value.fits,
    decide_eq_true shallow, Bool.and_true]
  cases value.numbersFinite <;> rfl

/-- The tree of a value is the value with null in place of the numbers that are not finite, and the
tree of that is itself.  Its text is read as it; and the text of the value is read as it, too, if all
numbers are finite, and not at all otherwise. -/
theorem Value.serialize_agrees_with_render {serializer : Serializer Value}
    (builds : BuildsTrees serializer) {value : Value} (distinct : value.keysDistinct = true) :
    value.serialize serializer = value.replaceNumbers finiteOrNull ∧
      (value.serialize serializer).serialize serializer = value.serialize serializer ∧
      ∀ reader : Reader, reader.options.escapes = .json →
        value.depth ≤ reader.options.maxDepth →
        reader.parseDocument (value.serialize serializer).render =
            .ok (value.serialize serializer) ∧
          reader.parseDocument value.render =
            if value.numbersFinite = true then .ok (value.serialize serializer)
            else .error .noValue := by
  have tree := serialize_eq_replaceNumbers builds distinct
  have finiteTree := numbersFinite_replaceNumbers numbersFinite_finiteOrNull value
  have distinctTree := keysDistinct_replaceNumbers keysDistinct_finiteOrNull distinct
  rw [tree]
  refine ⟨rfl, ?_, ?_⟩
  · rw [serialize_eq_replaceNumbers builds distinctTree,
      replaceNumbers_eq_self finiteOrNull_of_isFinite finiteTree]
  · intro reader escapes shallow
    have shallowTree := depth_replaceNumbers_le depth_finiteOrNull shallow
    rw [reader.parseDocument_of_shallow escapes distinctTree shallowTree, if_pos finiteTree,
      reader.parseDocument_of_shallow escapes distinct shallow]
    refine ⟨rfl, ?_⟩
    cases finite : value.numbersFinite with
    | false => rfl
    | true => rw [replaceNumbers_eq_self finiteOrNull_of_isFinite finite]

/-- A negative zero is kept, and what is not finite becomes null, at any depth. -/
theorem Value.serialize_agrees_with_render_infinity :
    (object ⟨[("b", array [number (.zero true), number (.infinity true)]),
          ("a", number .nan)]⟩).tree =
        object ⟨[("b", array [number (.zero true), null]), ("a", null)]⟩ ∧
      Reader.parseDocument {} (object ⟨[("b", array [number (.zero true),
          number (.infinity true)]), ("a", number .nan)]⟩).render = .error .noValue := by
  have distinct : (object ⟨[("b", array [number (.zero true), number (.infinity true)]),
      ("a", number .nan)]⟩).keysDistinct = true := by decide
  obtain ⟨tree, -, read⟩ := serialize_agrees_with_render buildsTrees_tree distinct
  exact ⟨tree, (read {} rfl (by decide)).2.trans (if_neg (by decide))⟩

end TextGrammar.Json
