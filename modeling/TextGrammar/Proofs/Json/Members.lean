import Mathlib.Data.List.Induction
import TextGrammar.Json.Members

/-!
# Members with distinct keys

Storing never makes a key stand twice.  The members that arise from storing entries are therefore
those with distinct keys, and of those every one arises from its own entries.
-/

namespace TextGrammar.Json.Members

universe u

variable {α : Type u}

theorem ofList_concat (entries : List (String × α)) (last : String × α) :
    ofList (entries ++ [last]) = (ofList entries).insert last.1 last.2 :=
  List.foldl_append

/-- Storing keeps the keys distinct. -/
theorem nodup_keys_insert {members : Members α} (distinct : members.keys.Nodup) (key : String)
    (value : α) : (members.insert key value).keys.Nodup := by
  rw [keys_insert]
  split
  · exact distinct
  · next absent =>
      refine List.nodup_append.mpr ⟨distinct, by simp, ?_⟩
      intro present member added isKey same
      rw [same, List.mem_singleton.mp isKey] at member
      exact absent member

theorem nodup_keys_ofList (entries : List (String × α)) : (ofList entries).keys.Nodup := by
  induction entries using List.reverseRecOn with
  | nil => exact .nil
  | append_singleton entries last ih =>
      rw [ofList_concat]
      exact nodup_keys_insert ih last.1 last.2

/-- Storing adds no other entry than the one that is stored. -/
theorem mem_entries_insert {members : Members α} {key : String} {value : α}
    {entry : String × α} (member : entry ∈ (members.insert key value).entries) :
    entry = (key, value) ∨ entry ∈ members.entries := by
  obtain ⟨entries⟩ := members
  change entry ∈ (exchangeEntry key value entries).2 at member
  change entry = (key, value) ∨ entry ∈ entries
  induction entries with
  | nil => exact .inl (List.mem_singleton.mp member)
  | cons first rest ih =>
      obtain ⟨present, old⟩ := first
      by_cases same : present = key
      · simp only [exchangeEntry, if_pos same, List.mem_cons] at member ⊢
        rcases member with rfl | member
        · exact .inl rfl
        · exact .inr (.inr member)
      · simp only [exchangeEntry, if_neg same, List.mem_cons] at member ⊢
        rcases member with rfl | member
        · exact .inr (.inl rfl)
        · rcases ih member with stored | kept
          · exact .inl stored
          · exact .inr (.inr kept)

/-- Every entry is one of those that were stored. -/
theorem mem_of_mem_entries_ofList {entries : List (String × α)} {entry : String × α}
    (member : entry ∈ (ofList entries).entries) : entry ∈ entries := by
  induction entries using List.reverseRecOn with
  | nil => exact member
  | append_singleton entries last ih =>
      rw [ofList_concat] at member
      rw [List.mem_append, List.mem_singleton]
      rcases mem_entries_insert member with stored | kept
      · exact .inr stored
      · exact .inl (ih kept)

/-- Under a new key an entry is stored behind the others. -/
theorem insert_of_not_mem {members : Members α} {key : String} (absent : key ∉ members.keys)
    (value : α) : members.insert key value = ⟨members.entries ++ [(key, value)]⟩ := by
  obtain ⟨entries⟩ := members
  change (⟨(exchangeEntry key value entries).2⟩ : Members α) = ⟨entries ++ [(key, value)]⟩
  congr 1
  induction entries with
  | nil => rfl
  | cons first rest ih =>
      obtain ⟨present, old⟩ := first
      rw [keys, List.map_cons, List.mem_cons, not_or] at absent
      simp [exchangeEntry, Ne.symm absent.1, ih absent.2]

/-- Entries with distinct keys are the entries of what arises from storing them. -/
theorem ofList_of_nodup {entries : List (String × α)} (distinct : (entries.map Prod.fst).Nodup) :
    ofList entries = ⟨entries⟩ := by
  induction entries using List.reverseRecOn with
  | nil => rfl
  | append_singleton entries last ih =>
      rw [List.map_append, List.nodup_append] at distinct
      obtain ⟨distinctFront, -, different⟩ := distinct
      have absent : last.1 ∉ (ofList entries).keys := by
        rw [ih distinctFront]
        intro member
        exact different _ member _ (List.mem_singleton.mpr rfl) rfl
      rw [ofList_concat, insert_of_not_mem absent, ih distinctFront]

/-- Members have distinct keys exactly when they arise from storing entries. -/
theorem nodup_keys_iff {members : Members α} :
    members.keys.Nodup ↔ ∃ entries, members = ofList entries := by
  constructor
  · intro distinct
    exact ⟨members.entries, (ofList_of_nodup distinct).symm⟩
  · rintro ⟨entries, rfl⟩
    exact nodup_keys_ofList entries

end TextGrammar.Json.Members
