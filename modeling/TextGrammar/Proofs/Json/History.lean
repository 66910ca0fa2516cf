import Mathlib.Data.Finset.Card
import TextGrammar.Proofs.Json.Exactness
import TextGrammar.Proofs.Json.Members

/-!
# What members tell of their history

Members come about by storing entries, many at once or one behind the other.  However they came
about, they tell the same of what was stored: which keys there were, in the order in which each
came first, and under each key the value that came last.  Where a key stands and what stands under
it are thus settled by two different entries of the history.

One more entry changes no other entry, neither its key nor its value nor its place.  The members of
an object that is read tell of the entries in its text.
-/

namespace TextGrammar.Json

namespace Members

universe u

variable {α : Type u} {history : List (String × α)} {members : Members α}

/-- The members come about by storing the entries of the history, beginning with none: one by one,
or many at once behind the entries of members that are there. -/
inductive Arises : List (String × α) → Members α → Prop where
  | begun : Arises [] empty
  | stored {history : List (String × α)} {members : Members α} (key : String) (value : α) :
      Arises history members → Arises (history ++ [(key, value)]) (members.insert key value)
  | collected {history : List (String × α)} {members : Members α} (entries : List (String × α)) :
      Arises history members → Arises (history ++ entries) (ofList (members.toList ++ entries))

/-- What the members tell of the entries that were stored. -/
structure Reflects (history : List (String × α)) (members : Members α) : Prop where
  /-- No key stands twice. -/
  distinct : members.keys.Nodup
  /-- The keys are those that were stored. -/
  mem_keys_iff : ∀ key, key ∈ members.keys ↔ key ∈ history.map Prod.fst
  /-- A key that was stored earlier for the first time stands further in front. -/
  inOrder : members.keys.Pairwise fun left right =>
    (history.map Prod.fst).idxOf left < (history.map Prod.fst).idxOf right
  /-- Under a key stands the value that was stored last, if one was stored. -/
  latest : ∀ key, members.get? key = history.reverse.lookup key

/-! ## One entry more -/

/-- Storing changes no entry under another key, and moves none. -/
theorem getElem?_entries_insert {key other : String} (different : other ≠ key) (value old : α)
    (position : Nat) :
    (members.insert key value).entries[position]? = some (other, old) ↔
      members.entries[position]? = some (other, old) := by
  cases members with
  | mk entries =>
      change (exchangeEntry key value entries).2[position]? = some (other, old) ↔
        entries[position]? = some (other, old)
      induction entries generalizing position with
      | nil =>
          cases position with
          | zero => simp [exchangeEntry, different.symm]
          | succ position => simp [exchangeEntry]
      | cons entry rest ih =>
          cases entry with
          | mk present found =>
              by_cases same : present = key
              · subst same
                cases position with
                | zero => simp [exchangeEntry, different.symm]
                | succ position => simp [exchangeEntry]
              · cases position with
                | zero => simp [exchangeEntry, same]
                | succ position => simpa [exchangeEntry, same] using ih position

theorem reflects_empty : Reflects [] (empty : Members α) where
  distinct := .nil
  mem_keys_iff _ := Iff.rfl
  inOrder := .nil
  latest _ := rfl

/-- What members tell of a history they tell of one with an entry more when that is stored. -/
theorem Reflects.insert (reflects : Reflects history members) (key : String) (value : α) :
    Reflects (history ++ [(key, value)]) (members.insert key value) where
  distinct := nodup_keys_insert reflects.distinct key value
  mem_keys_iff other := by
    rw [keys_insert, List.map_append, List.mem_append, ← reflects.mem_keys_iff]
    by_cases present : key ∈ members.keys
    · rw [if_pos present]
      constructor
      · exact Or.inl
      · intro either
        cases either with
        | inl member => exact member
        | inr added =>
            rw [List.mem_singleton.mp added]
            exact present
    · rw [if_neg present, List.mem_append]
      rfl
  inOrder := by
    -- A key that was stored before has been stored for the first time before.
    have earlier {other : String} (member : other ∈ members.keys) :
        other ∈ history.map Prod.fst := (reflects.mem_keys_iff other).mp member
    have kept : members.keys.Pairwise fun left right =>
        ((history ++ [(key, value)]).map Prod.fst).idxOf left <
          ((history ++ [(key, value)]).map Prod.fst).idxOf right := by
      apply reflects.inOrder.imp_of_mem
      intro left right memberLeft memberRight before
      rw [List.map_append, List.idxOf_append_of_mem (earlier memberLeft),
        List.idxOf_append_of_mem (earlier memberRight)]
      exact before
    rw [keys_insert]
    by_cases present : key ∈ members.keys
    · rw [if_pos present]
      exact kept
    · rw [if_neg present, List.pairwise_append]
      refine ⟨kept, List.pairwise_singleton _ _, ?_⟩
      intro left member right added
      have new : key ∉ history.map Prod.fst := fun stored =>
        present ((reflects.mem_keys_iff key).mpr stored)
      rw [List.mem_singleton.mp added, List.map_append, List.idxOf_append_of_mem (earlier member),
        List.idxOf_append_of_notMem new]
      have within := List.idxOf_lt_length_of_mem (earlier member)
      exact Nat.lt_add_right _ within
  latest other := by
    rw [get?_insert, List.reverse_append, List.reverse_singleton, List.singleton_append,
      List.lookup_cons]
    by_cases sought : other = key
    · rw [if_pos sought, sought, beq_self_eq_true]
    · have different : (other == key) = false := beq_eq_false_iff_ne.mpr sought
      rw [if_neg sought, different]
      exact reflects.latest other

/-! ## Any number of entries -/

/-- Storing many entries is storing one behind the other. -/
theorem Reflects.foldl_insert (reflects : Reflects history members)
    (entries : List (String × α)) :
    Reflects (history ++ entries)
      (entries.foldl (fun members (key, value) => members.insert key value) members) := by
  induction entries generalizing history members with
  | nil =>
      rw [List.append_nil]
      exact reflects
  | cons entry entries ih =>
      have next := ih (reflects.insert entry.1 entry.2)
      rw [List.append_assoc] at next
      exact next

theorem reflects_ofList (entries : List (String × α)) : Reflects entries (ofList entries) :=
  reflects_empty.foldl_insert entries

/-- What arises from two lists of entries arises from the first and then the second. -/
theorem ofList_append (first second : List (String × α)) :
    ofList (first ++ second) =
      second.foldl (fun members (key, value) => members.insert key value) (ofList first) :=
  List.foldl_append

/-- Members arise again from storing their own entries. -/
theorem Reflects.ofList_toList (reflects : Reflects history members) :
    ofList members.toList = members :=
  ofList_of_nodup reflects.distinct

/-- There are as many members as there are different keys in the history. -/
theorem Reflects.size_eq (reflects : Reflects history members) :
    members.size = (history.map Prod.fst).toFinset.card := by
  have same : members.keys.toFinset = (history.map Prod.fst).toFinset := by
    ext key
    rw [List.mem_toFinset, List.mem_toFinset]
    exact reflects.mem_keys_iff key
  calc members.size = members.keys.length := (List.length_map Prod.fst).symm
    _ = members.keys.toFinset.card := (List.toFinset_card_of_nodup reflects.distinct).symm
    _ = (history.map Prod.fst).toFinset.card := by rw [same]

/-- However the entries were stored, the members tell of them. -/
theorem Arises.reflects (arises : Arises history members) : Reflects history members := by
  induction arises with
  | begun => exact reflects_empty
  | stored key value _ ih => exact ih.insert key value
  | collected entries _ ih =>
      rw [ofList_append, ih.ofList_toList]
      exact ih.foldl_insert entries

end Members

/-! ## The members of an object that is read -/

/-- The text of an object amid blanks, with its entries in the order in which they are written. -/
def ObjectText (options : Options) (text : List Char) (entries : List (String × Value)) : Prop :=
  ∃ depth before core after, options.maxDepth = depth + 1 ∧ text = before ++ (core ++ after) ∧
    Blanks options before ∧
    Bracketed options '\x7b' '\x7d' (Member options depth) core entries ∧ Blanks options after

/-- The texts of objects are the elements that mean objects, and what they mean arises from the
entries. -/
theorem element_object_iff {options : Options} {text : List Char} {members : Members Value} :
    Element options options.maxDepth text (.object members) ↔
      ∃ entries, ObjectText options text entries ∧ members = .ofList entries := by
  constructor
  · intro element
    generalize limit : options.maxDepth = most at element
    cases element with
    | intro blank bare blankAfter =>
        cases most with
        | zero => cases bare
        | succ depth =>
            obtain ⟨entries, bracketed, arisen⟩ := bare_object_iff.mp bare
            exact ⟨entries, ⟨depth, _, _, _, limit, rfl, blank, bracketed, blankAfter⟩, arisen⟩
  · rintro ⟨entries, ⟨depth, before, core, after, limit, rfl, blank, bracketed, blankAfter⟩, rfl⟩
    rw [limit]
    exact .intro blank (bare_object_iff.mpr ⟨entries, bracketed, rfl⟩) blankAfter

namespace Reader

open Members

/-- What is read as an object is the text of one, and its members tell of the entries in it. -/
theorem reflects_of_parseValue {reader : Reader} {text rest : String} {members : Members Value}
    (found : reader.parseValue text = some (.object members, rest)) :
    ∃ passed entries, text.toList = passed ++ rest.toList ∧
      ObjectText reader.options passed entries ∧ Reflects entries members := by
  obtain ⟨passed, split, before⟩ := (parseValue_eq_some_iff reader).mp found
  obtain ⟨entries, written, arisen⟩ := element_object_iff.mp before.element
  rw [arisen]
  exact ⟨passed, entries, split, written, reflects_ofList entries⟩

/-- The text of an object is read, and the members tell of the entries in it. -/
theorem exists_reflects_of_objectText {reader : Reader} {text : String}
    {entries : List (String × Value)} (written : ObjectText reader.options text.toList entries) :
    ∃ members, reader.parseDocument text = .ok (.object members) ∧ Reflects entries members := by
  have element := element_object_iff.mpr ⟨entries, written, rfl⟩
  refine ⟨.ofList entries, ?_, reflects_ofList entries⟩
  rw [parseDocument_eq_ok_iff_parseValue, parseValue_eq_some_empty_iff]
  exact element

universe u

/-- However members come about, by entries that are stored at once or one by one, they hold each key
once, at the place of its first arrival and with the value of its last; there are as many of them as
there are different keys.  Storing an entry yields what was under its key before, and changes no
entry under another key, nor its place.  Members arise again from their own entries, and from two
lists of entries as from the first and then the second.  The objects that are read are such members
of the entries in their texts, and every text of an object is read. -/
theorem members_reflect_history :
    (∀ {α : Type u} {history : List (String × α)} {members : Members α},
      Arises history members →
        Reflects history members ∧
        members.size = (history.map Prod.fst).toFinset.card ∧
        ofList members.toList = members ∧
        ∀ (key : String) (value : α), (members.exchange key value).1 = members.get? key ∧
          ∀ (position : Nat) (other : String) (old : α), other ≠ key →
            ((members.insert key value).entries[position]? = some (other, old) ↔
              members.entries[position]? = some (other, old))) ∧
    (∀ {α : Type u} (first second : List (String × α)),
      ofList (first ++ second) =
        second.foldl (fun members (key, value) => members.insert key value) (ofList first)) ∧
    ∀ reader : Reader,
      (∀ text rest members, reader.parseValue text = some (.object members, rest) →
        ∃ passed entries, text.toList = passed ++ rest.toList ∧
          ObjectText reader.options passed entries ∧ Reflects entries members) ∧
      ∀ text entries, ObjectText reader.options text.toList entries →
        ∃ members, reader.parseDocument text = .ok (.object members) ∧
          Reflects entries members := by
  refine ⟨?_, ?_, ?_⟩
  · intro α history members arises
    have reflects := arises.reflects
    refine ⟨reflects, reflects.size_eq, reflects.ofList_toList, ?_⟩
    intro key value
    refine ⟨exchange_fst members key value, ?_⟩
    intro position other old different
    exact getElem?_entries_insert different value old position
  · intro α first second
    exact ofList_append first second
  · intro reader
    refine ⟨?_, ?_⟩
    · intro text rest members found
      exact reflects_of_parseValue found
    · intro text entries written
      exact exists_reflects_of_objectText written

/-- Two keys of which the first is stored again at the end, and the text of an object whose only key
stands twice in it. -/
theorem members_reflect_history_repeated :
    (∃ members, Arises [("b", Value.null), ("a", .bool true), ("b", .bool false)] members ∧
      members.get? "b" = some (.bool false) ∧ members.size = 2 ∧
      "a" ≠ "b" ∧ members.entries[1]? = some ("a", .bool true)) ∧
    ObjectText {} "\x7b\"\":null,\"\":true\x7d".toList [("", .null), ("", .bool true)] ∧
    ∃ members, parseDocument {} "\x7b\"\":null,\"\":true\x7d" = .ok (.object members) ∧
      members.get? "" = some (.bool true) ∧
      ∃ passed entries, ObjectText {} passed entries ∧ Reflects entries members := by
  obtain ⟨ofHistory, -, ofReader⟩ := members_reflect_history
  have arises := Arises.stored "a" (Value.bool true) (.collected [("b", Value.null)] .begun)
  have twice := Arises.stored "b" (.bool false) arises
  obtain ⟨reflects, size, -, -⟩ := ofHistory twice
  obtain ⟨-, -, -, step⟩ := ofHistory arises
  have key : Quotation (Options.escapes {}) ['"', '"'] "" := .intro .nil
  have first : Member {} 63 "\"\":null".toList ("", .null) :=
    .intro blanks_nil key blanks_nil Bare.null.element
  have second : Member {} 63 "\"\":true".toList ("", .bool true) :=
    .intro blanks_nil key blanks_nil Bare.truth.element
  have bracketed : Bracketed {} '\x7b' '\x7d' (Member {} 63)
      "\x7b\"\":null,\"\":true\x7d".toList [("", .null), ("", .bool true)] :=
    .filled (List.cons_ne_nil (_, _) [(_, _)])
      (List.forall_mem_cons.mpr ⟨first, List.forall_mem_singleton.mpr second⟩)
  have written : ObjectText {} "\x7b\"\":null,\"\":true\x7d".toList
      [("", .null), ("", .bool true)] :=
    ⟨63, [], _, [], rfl, (List.append_nil _).symm, blanks_nil, bracketed, blanks_nil⟩
  have kept := ((step "b" (.bool false)).2 1 "a" (.bool true) (by decide)).mpr rfl
  obtain ⟨members, read, told⟩ := (ofReader {}).2 _ _ written
  have value := (parseDocument_eq_ok_iff_parseValue {}).mp read
  obtain ⟨passed, entries, -, writtenAgain, toldAgain⟩ := (ofReader {}).1 _ _ _ value
  exact ⟨⟨_, twice, reflects.latest "b", size, by decide, kept⟩, written, members, read,
    told.latest "", passed, entries, writtenAgain, toldAgain⟩

end Reader

end TextGrammar.Json
