/-!
# Members of an object

The members of an object stand in the order in which their keys first came.  Storing under a key
that is present replaces the value where it stands.  The number of members is small in practice, so
they are kept in a list and looked for from the front.
-/

namespace TextGrammar.Json

universe u

/-- Values under text keys, in the order of the keys' first arrival. -/
structure Members (α : Type u) where
  /-- The keys with their values. -/
  entries : List (String × α)

namespace Members

variable {α : Type u}

/-- No members. -/
def empty : Members α :=
  ⟨[]⟩

instance : Inhabited (Members α) := ⟨empty⟩

/-- The number of members. -/
def size (members : Members α) : Nat :=
  members.entries.length

/-- Whether there are no members. -/
def isEmpty (members : Members α) : Bool :=
  members.entries.isEmpty

/-- The keys, in order. -/
def keys (members : Members α) : List String :=
  members.entries.map Prod.fst

/-- The value under a key. -/
def get? (members : Members α) (key : String) : Option α :=
  members.entries.lookup key

/-- Whether there is a value under a key. -/
def contains (members : Members α) (key : String) : Bool :=
  (members.get? key).isSome

/-- Put a value under a key into a list of entries: in place of the first value under that key, or
at the end.  The value that was there comes back with the new entries. -/
def exchangeEntry (key : String) (value : α) :
    List (String × α) → Option α × List (String × α)
  | [] => (none, [(key, value)])
  | (present, old) :: rest =>
      if present = key then
        (some old, (key, value) :: rest)
      else
        let (replaced, rest) := exchangeEntry key value rest
        (replaced, (present, old) :: rest)

/-- Store a value under a key.  The value that was there before comes back with the new members. -/
def exchange (members : Members α) (key : String) (value : α) : Option α × Members α :=
  let (replaced, entries) := exchangeEntry key value members.entries
  (replaced, ⟨entries⟩)

/-- Store a value under a key. -/
def insert (members : Members α) (key : String) (value : α) : Members α :=
  (members.exchange key value).2

/-- The members that arise from storing entries one after another. -/
def ofList (entries : List (String × α)) : Members α :=
  entries.foldl (fun members (key, value) => members.insert key value) empty

/-- The keys with their values, in order. -/
def toList (members : Members α) : List (String × α) :=
  members.entries

/-- What comes back from storing is what was there. -/
theorem exchange_fst (members : Members α) (key : String) (value : α) :
    (members.exchange key value).1 = members.get? key := by
  obtain ⟨entries⟩ := members
  change (exchangeEntry key value entries).1 = entries.lookup key
  induction entries with
  | nil => rfl
  | cons entry rest ih =>
      obtain ⟨present, old⟩ := entry
      by_cases same : present = key
      · simp [exchangeEntry, same]
      · have different : (key == present) = false := by simpa using Ne.symm same
        simp [exchangeEntry, List.lookup_cons, same, different, ih]

/-- What was stored is found under its key, and nothing else has changed. -/
theorem get?_insert (members : Members α) (key other : String) (value : α) :
    (members.insert key value).get? other =
      if other = key then some value else members.get? other := by
  obtain ⟨entries⟩ := members
  change (exchangeEntry key value entries).2.lookup other =
    if other = key then some value else entries.lookup other
  induction entries with
  | nil =>
      by_cases sought : other = key
      · simp [exchangeEntry, sought]
      · have different : (other == key) = false := beq_eq_false_iff_ne.mpr sought
        simp [exchangeEntry, List.lookup_cons, sought, different]
  | cons entry rest ih =>
      obtain ⟨present, old⟩ := entry
      by_cases same : present = key
      · subst same
        by_cases sought : other = present
        · simp [exchangeEntry, sought]
        · have different : (other == present) = false := beq_eq_false_iff_ne.mpr sought
          simp [exchangeEntry, List.lookup_cons, sought, different]
      · by_cases sought : other = present
        · subst sought
          simp [exchangeEntry, same]
        · have different : (other == present) = false := beq_eq_false_iff_ne.mpr sought
          simpa [exchangeEntry, List.lookup_cons, same, different] using ih

/-- Storing keeps the keys, and adds the new one at the end if it was not there. -/
theorem keys_insert (members : Members α) (key : String) (value : α) :
    (members.insert key value).keys =
      if key ∈ members.keys then members.keys else members.keys ++ [key] := by
  obtain ⟨entries⟩ := members
  change (exchangeEntry key value entries).2.map Prod.fst =
    if key ∈ entries.map Prod.fst then entries.map Prod.fst else entries.map Prod.fst ++ [key]
  induction entries with
  | nil => rfl
  | cons entry rest ih =>
      obtain ⟨present, old⟩ := entry
      by_cases same : present = key
      · simp [exchangeEntry, same]
      · simp only [exchangeEntry, same, if_false, List.map_cons, ih, List.mem_cons]
        simp only [show (key = present) = False from eq_false (Ne.symm same), false_or]
        split <;> rfl

end Members

end TextGrammar.Json
