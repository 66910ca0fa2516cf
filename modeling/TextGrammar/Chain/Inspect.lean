import TextGrammar.Chain.Basic
import TextGrammar.Inspect.Description

/-!
# Looking at chains

The list of a chain's elements says all there is to know about it (`toList_inj`), and each operation
on chains does to that list what its name says.

A chain is described as the list of its elements is.  A walk along a chain is described by where it
stands: one that only looks shows whether a link comes next, and one that owns its chain shows the
rest.
-/

namespace TextGrammar.Chain

universe u v

variable {α : Type u} {β : Type v}

/-! ## The list of the elements -/

@[simp] theorem toList_nil : (nil : Chain α).toList = [] := rfl

@[simp] theorem toList_cons (head : α) (tail : Chain α) :
    (cons head tail).toList = head :: tail.toList := by
  have general : ∀ (chain : Chain α) (found : List α),
      chain.foldl (fun reversed element => element :: reversed) found =
        chain.foldl (fun reversed element => element :: reversed) [] ++ found := by
    intro chain
    induction chain with
    | nil => simp [foldl]
    | cons head tail ih =>
        intro found
        simp only [foldl]
        rw [ih, ih [head]]
        simp
  simp only [toList, foldl]
  rw [general]
  simp

/-- Chains with the same elements in the same order are the same. -/
theorem toList_inj {left right : Chain α} : left.toList = right.toList ↔ left = right := by
  constructor
  · intro same
    induction left generalizing right with
    | nil => cases right <;> simp_all
    | cons head tail ih =>
        cases right with
        | nil => simp at same
        | cons other others =>
            simp only [toList_cons, List.cons.injEq] at same
            rw [same.1, ih same.2]
  · exact congrArg toList

@[simp] theorem toList_ofList (elements : List α) : (ofList elements).toList = elements := by
  induction elements with
  | nil => rfl
  | cons head tail ih =>
      change (cons head (ofList tail)).toList = head :: tail
      rw [toList_cons, ih]

@[simp] theorem ofList_toList (chain : Chain α) : ofList chain.toList = chain :=
  toList_inj.mp (toList_ofList _)

@[simp] theorem toList_ofText (text : String) : (ofText text).toList = text.toList :=
  toList_ofList _

@[simp] theorem toList_singleton (element : α) : (singleton element).toList = [element] := by
  simp [singleton]

@[simp] theorem toList_replicate (times : Nat) (element : α) :
    (replicate times element).toList = List.replicate times element := by
  have general : ∀ (times : Nat) (rest : Chain α),
      (replicateOnto element rest times).toList = List.replicate times element ++ rest.toList := by
    intro times
    induction times with
    | zero => simp [replicateOnto]
    | succ times ih =>
        intro rest
        simp [replicateOnto, ih, List.replicate_succ', List.append_assoc]
  simp [replicate, general]

theorem foldl_eq (combine : β → α → β) (start : β) (chain : Chain α) :
    chain.foldl combine start = chain.toList.foldl combine start := by
  induction chain generalizing start with
  | nil => rfl
  | cons head tail ih => simp [foldl, ih]

@[simp] theorem size_eq (chain : Chain α) : chain.size = chain.toList.length := by
  rw [size, foldl_eq]
  have general : ∀ (elements : List α) (count : Nat),
      elements.foldl (fun count _ => count + 1) count = elements.length + count := by
    intro elements
    induction elements with
    | nil => simp
    | cons head tail ih =>
        intro count
        simp only [List.foldl_cons, ih, List.length_cons]
        omega
  simp [general]

@[simp] theorem isEmpty_eq (chain : Chain α) : chain.isEmpty = chain.toList.isEmpty := by
  cases chain <;> simp [isEmpty]

@[simp] theorem head?_eq (chain : Chain α) : chain.head? = chain.toList.head? := by
  cases chain <;> simp [head?, next?]

@[simp] theorem toList_drop (count : Nat) (chain : Chain α) :
    (chain.drop count).toList = chain.toList.drop count := by
  induction chain generalizing count with
  | nil => cases count <;> simp [drop]
  | cons head tail ih => cases count <;> simp [drop, ih]

@[simp] theorem toList_tail (chain : Chain α) : chain.tail.toList = chain.toList.tail := by
  simp [tail]

@[simp] theorem toList_reverseOnto (chain rest : Chain α) :
    (chain.reverseOnto rest).toList = chain.toList.reverse ++ rest.toList := by
  rw [reverseOnto]
  induction chain generalizing rest with
  | nil => simp [foldl]
  | cons head tail ih => simp [foldl, ih]

@[simp] theorem toList_reverse (chain : Chain α) :
    chain.reverse.toList = chain.toList.reverse := by
  simp [reverse]

@[simp] theorem toList_append (front back : Chain α) :
    (front ++ back).toList = front.toList ++ back.toList := by
  change (front.append back).toList = _
  simp [append]

@[simp] theorem toList_map (f : α → β) (chain : Chain α) :
    (chain.map f).toList = chain.toList.map f := by
  have general : ∀ (chain : Chain α) (rest : Chain β),
      (chain.foldl (fun reversed element => cons (f element) reversed) rest).toList =
        (chain.toList.map f).reverse ++ rest.toList := by
    intro chain
    induction chain with
    | nil => simp [foldl]
    | cons head tail ih =>
        intro rest
        simp [foldl, ih]
  simp [map, general]

@[simp] theorem toList_take (count : Nat) (chain : Chain α) :
    (chain.take count).toList = chain.toList.take count := by
  have general : ∀ (chain : Chain α) (count : Nat) (taken : Chain α),
      (takeOnto taken count chain).toList = (chain.toList.take count).reverse ++ taken.toList := by
    intro chain
    induction chain with
    | nil => intro count taken; cases count <;> simp [takeOnto]
    | cons head tail ih => intro count taken; cases count <;> simp [takeOnto, ih]
  simp [take, general]

@[simp] theorem toList_zip (left : Chain α) (right : Chain β) :
    (left.zip right).toList = left.toList.zip right.toList := by
  have general : ∀ (left : Chain α) (right : Chain β) (zipped : Chain (α × β)),
      (zipOnto zipped left right).toList =
        (left.toList.zip right.toList).reverse ++ zipped.toList := by
    intro left
    induction left with
    | nil => intro right zipped; simp [zipOnto]
    | cons head tail ih => intro right zipped; cases right <;> simp [zipOnto, ih]
  simp [zip, general]

/-! ## Descriptions -/

instance [Inspect α] : Inspect (Chain α) :=
  ⟨fun chain => .sequence (chain.map describe).toList⟩

theorem describe_eq [Inspect α] (chain : Chain α) : describe chain = describe chain.toList := by
  change Description.sequence _ = .sequence _
  rw [toList_map]

/-- The description of a walk that looks at the links of `rest` from here on. -/
def describeLooking (rest : Chain α) : Description :=
  let next : Description :=
    match rest.next? with
    | none => .word "None"
    | some _ => .tuple "Some" [.word "Node"]
  .record "Iter" [("next", next)]

/-- The description of a walk that takes the elements of `rest` from here on. -/
def describeTaking [Inspect α] (rest : Chain α) : Description :=
  .record "IntoIter" [("list", describe rest)]

end TextGrammar.Chain
