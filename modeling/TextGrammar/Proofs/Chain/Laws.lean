import TextGrammar.Proofs.Chain.Walk
import TextGrammar.Proofs.Counting

/-!
# Laws of chains

Each operation runs along the links in a loop of its own: one goes forward and stops early, one
turns round what it has collected, one looks for a key.  On the elements they nevertheless fit
together.  What is cut in two is joined again, what is turned round twice is as before, and changing
every element can be done before or after.

The number of elements to take or to leave out has no bound.  A loop that counts its turns in a
machine word does the same (`takeBelow_eq`, `dropBelow_eq`), and two such numbers add up also where
their sum is no machine word (`dropBelow_dropBelow`).
-/

namespace TextGrammar.Chain

universe u v w x

variable {α : Type u} {β : Type v} {γ : Type w} {δ : Type x}

/-! ## One behind the other -/

theorem append_assoc (front middle back : Chain α) :
    front ++ middle ++ back = front ++ (middle ++ back) := by
  apply toList_inj.mp
  simp only [toList_append, List.append_assoc]

theorem nil_append (chain : Chain α) : nil ++ chain = chain := by
  apply toList_inj.mp
  rw [toList_append, toList_nil, List.nil_append]

theorem append_nil (chain : Chain α) : chain ++ nil = chain := by
  apply toList_inj.mp
  rw [toList_append, toList_nil, List.append_nil]

theorem size_append (front back : Chain α) : (front ++ back).size = front.size + back.size := by
  simp only [size_eq, toList_append, List.length_append]

/-! ## Turned round -/

theorem reverse_reverse (chain : Chain α) : chain.reverse.reverse = chain := by
  apply toList_inj.mp
  rw [toList_reverse, toList_reverse, List.reverse_reverse]

theorem reverse_append (front back : Chain α) :
    (front ++ back).reverse = back.reverse ++ front.reverse := by
  apply toList_inj.mp
  simp only [toList_reverse, toList_append, List.reverse_append]

/-! ## Cut in two -/

theorem take_append_drop (count : Nat) (chain : Chain α) :
    chain.take count ++ chain.drop count = chain := by
  apply toList_inj.mp
  rw [toList_append, toList_take, toList_drop, List.take_append_drop]

theorem size_take (count : Nat) (chain : Chain α) :
    (chain.take count).size = min count chain.size := by
  rw [size_eq, toList_take, List.length_take, size_eq]

theorem size_drop (count : Nat) (chain : Chain α) :
    (chain.drop count).size = chain.size - count := by
  rw [size_eq, toList_drop, List.length_drop, size_eq]

/-- No more elements are left out than there are. -/
theorem drop_min_size (count : Nat) (chain : Chain α) :
    chain.drop (min count chain.size) = chain.drop count := by
  apply toList_inj.mp
  rw [toList_drop, toList_drop, size_eq, ← List.drop_eq_drop_min]

/-- Leaving out some elements and then some more leaves out both together, as far as there are so
many. -/
theorem drop_drop (count more : Nat) (chain : Chain α) :
    (chain.drop count).drop more = chain.drop (min (count + more) chain.size) := by
  rw [drop_min_size]
  apply toList_inj.mp
  simp only [toList_drop, List.drop_drop]

/-! ## Counted in a machine word -/

/-- Leave out the next element. -/
def dropStep (rest : Chain α) : Option (Chain α) :=
  rest.next?.map Prod.snd

/-- Take the next element, in front of those that have been taken. -/
def takeStep (state : Chain α × Chain α) : Option (Chain α × Chain α) :=
  state.2.next?.map fun (head, tail) => (cons head state.1, tail)

/-- The chain behind the first `limit` elements. -/
def dropBelow (limit : USize) (chain : Chain α) : Chain α :=
  stepBelow dropStep limit 0 chain

/-- The first `limit` elements, which are collected in reverse. -/
def takeBelow (limit : USize) (chain : Chain α) : Chain α :=
  (stepBelow takeStep limit 0 (nil, chain)).1.reverse

theorem stepTimes_dropStep (times : Nat) (chain : Chain α) :
    stepTimes dropStep times chain = chain.drop times := by
  induction times generalizing chain with
  | zero => rfl
  | succ times ih =>
      cases chain with
      | nil => rfl
      | cons head tail => exact ih tail

theorem stepTimes_takeStep (times : Nat) (taken chain : Chain α) :
    (stepTimes takeStep times (taken, chain)).1 = takeOnto taken times chain := by
  -- By induction on the turns: each moves one element over to those that have been taken.
  induction times generalizing taken chain with
  | zero => cases chain <;> rfl
  | succ times ih =>
      cases chain with
      | nil => rfl
      | cons head tail => exact ih (cons head taken) tail

theorem dropBelow_eq (limit : USize) (chain : Chain α) :
    chain.dropBelow limit = chain.drop limit.toNat := by
  rw [dropBelow, stepBelow_zero, stepTimes_dropStep]

theorem takeBelow_eq (limit : USize) (chain : Chain α) :
    chain.takeBelow limit = chain.take limit.toNat := by
  rw [takeBelow, stepBelow_zero, stepTimes_takeStep, take]

/-- The two numbers are added as they are, also where their sum is no machine word. -/
theorem dropBelow_dropBelow (limit more : USize) (chain : Chain α) :
    (chain.dropBelow limit).dropBelow more =
      chain.drop (min (limit.toNat + more.toNat) chain.size) := by
  rw [dropBelow_eq, dropBelow_eq, drop_drop]

/-! ## Changed everywhere -/

section Map

variable (f : α → β)

theorem map_append (front back : Chain α) : (front ++ back).map f = front.map f ++ back.map f := by
  apply toList_inj.mp
  simp only [toList_map, toList_append, List.map_append]

theorem map_reverse (chain : Chain α) : chain.reverse.map f = (chain.map f).reverse := by
  apply toList_inj.mp
  simp only [toList_map, toList_reverse, List.map_reverse]

theorem map_take (count : Nat) (chain : Chain α) :
    (chain.take count).map f = (chain.map f).take count := by
  apply toList_inj.mp
  simp only [toList_map, toList_take, List.map_take]

theorem map_drop (count : Nat) (chain : Chain α) :
    (chain.drop count).map f = (chain.map f).drop count := by
  apply toList_inj.mp
  simp only [toList_map, toList_drop, List.map_drop]

end Map

/-! ## Side by side -/

theorem map_zip (f : α → γ) (g : β → δ) (left : Chain α) (right : Chain β) :
    (left.zip right).map (Prod.map f g) = (left.map f).zip (right.map g) := by
  apply toList_inj.mp
  simp only [toList_map, toList_zip, List.zip_map]

theorem size_zip (left : Chain α) (right : Chain β) :
    (left.zip right).size = min left.size right.size := by
  simp only [size_eq, toList_zip, List.length_zip]

/-- A pair stands where its two elements stand. -/
theorem zip_at_eq_some_iff {left : Chain α} {right : Chain β} {place : Nat} {pair : α × β} :
    (left.zip right).toList[place]? = some pair ↔
      left.toList[place]? = some pair.1 ∧ right.toList[place]? = some pair.2 := by
  rw [toList_zip, List.getElem?_zip_eq_some]

/-! ## Looking for a key -/

/-- What is found is the value of the first entry with the key. -/
theorem lookup_eq_find? [BEq α] (key : α) (chain : Chain (α × β)) :
    chain.lookup key = (chain.toList.find? fun entry => entry.1 == key).map Prod.snd := by
  induction chain with
  | nil => rfl
  | cons entry rest ih =>
      -- Nothing is known of the comparison, not even that a key equals itself.
      obtain ⟨present, value⟩ := entry
      rw [lookup, toList_cons, List.find?_cons, ih]
      cases present == key <;> rfl

theorem lookup_append [BEq α] (key : α) (front back : Chain (α × β)) :
    (front ++ back).lookup key = (front.lookup key).or (back.lookup key) := by
  simp only [lookup_eq_find?, toList_append, List.find?_append, Option.map_or]

/-! ## All together -/

/-- Chains and lists of elements go over into each other, also by a walk that takes the elements one
after the other.  Chains that are joined, turned round or cut in two have the elements that they
should have, in their order, and as many.  No more elements are taken or left out than there are,
whatever numbers are asked for, and this can be counted in machine words.  Changing every element
can be done before or after.  Pairs are made of the elements at the same place, as far as both
chains go, and an entry is looked for from the first to the last. -/
theorem laws_of_sequences :
    (∀ {α : Type u} (chain rest : Chain α) (elements : List α),
      ofList chain.toList = chain ∧ (ofList elements).toList = elements ∧
      ofList chain.collect = chain ∧ (ofList elements).collect = elements ∧
      (Walk chain elements rest ↔ chain = ofList elements ++ rest)) ∧
    (∀ {α : Type u} (front middle back : Chain α),
      front.size = front.toList.length ∧
      (front ++ back).toList = front.toList ++ back.toList ∧
      front ++ middle ++ back = front ++ (middle ++ back) ∧
      nil ++ front = front ∧ front ++ nil = front ∧
      (front ++ back).size = front.size + back.size ∧
      front.reverse.toList = front.toList.reverse ∧
      front.reverse.reverse = front ∧
      (front ++ back).reverse = back.reverse ++ front.reverse) ∧
    (∀ {α : Type u} (chain : Chain α) (count more : Nat),
      chain.take count ++ chain.drop count = chain ∧
      (chain.take count).size = min count chain.size ∧
      (chain.drop count).drop more = chain.drop (min (count + more) chain.size) ∧
      ((chain.drop count).drop more).size = chain.size - min (count + more) chain.size) ∧
    (∀ {α : Type u} (chain : Chain α) (limit more : USize),
      chain.takeBelow limit = chain.take limit.toNat ∧
      chain.dropBelow limit = chain.drop limit.toNat ∧
      (chain.dropBelow limit).dropBelow more =
        chain.drop (min (limit.toNat + more.toNat) chain.size)) ∧
    (∀ {α : Type u} {β : Type v} (f : α → β) (chain other : Chain α) (count : Nat),
      (chain.map f).toList = chain.toList.map f ∧
      (chain ++ other).map f = chain.map f ++ other.map f ∧
      chain.reverse.map f = (chain.map f).reverse ∧
      (chain.take count).map f = (chain.map f).take count ∧
      (chain.drop count).map f = (chain.map f).drop count) ∧
    (∀ {α : Type u} {β : Type v} (left : Chain α) (right : Chain β),
      (left.zip right).size = min left.size right.size ∧
      (∀ (place : Nat) (pair : α × β), (left.zip right).toList[place]? = some pair ↔
        left.toList[place]? = some pair.1 ∧ right.toList[place]? = some pair.2) ∧
      ∀ {γ : Type w} {δ : Type x} (f : α → γ) (g : β → δ),
        (left.zip right).map (Prod.map f g) = (left.map f).zip (right.map g)) ∧
    ∀ {α : Type u} {β : Type v} [BEq α] (key : α) (front back : Chain (α × β)),
      front.lookup key = (front.toList.find? fun entry => entry.1 == key).map Prod.snd ∧
      (front ++ back).lookup key = (front.lookup key).or (back.lookup key) := by
  refine ⟨?lists, ?joined, ?cut, ?counted, ?changed, ?zipped, ?lookedUp⟩
  case lists =>
    intro α chain rest elements
    refine ⟨ofList_toList chain, toList_ofList elements, ?_, ?_, walk_iff⟩
    · rw [collect_eq, ofList_toList]
    · rw [collect_eq, toList_ofList]
  case joined =>
    intro α front middle back
    exact ⟨size_eq front, toList_append front back, append_assoc front middle back,
      nil_append front, append_nil front, size_append front back, toList_reverse front,
      reverse_reverse front, reverse_append front back⟩
  case cut =>
    intro α chain count more
    refine ⟨take_append_drop count chain, size_take count chain, drop_drop count more chain, ?_⟩
    rw [drop_drop, size_drop]
  case counted =>
    intro α chain limit more
    exact ⟨takeBelow_eq limit chain, dropBelow_eq limit chain,
      dropBelow_dropBelow limit more chain⟩
  case changed =>
    intro α β f chain other count
    exact ⟨toList_map f chain, map_append f chain other, map_reverse f chain,
      map_take f count chain, map_drop f count chain⟩
  case zipped =>
    intro α β left right
    refine ⟨size_zip left right, fun _ _ => zip_at_eq_some_iff, ?_⟩
    intro γ δ f g
    exact map_zip f g left right
  case lookedUp =>
    intro α β _ key front back
    exact ⟨lookup_eq_find? key front, lookup_append key front back⟩

end TextGrammar.Chain
