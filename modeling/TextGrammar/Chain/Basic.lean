/-!
# Chains

A chain is a sequence made of links, each holding an element and the chain behind it.  Chains are
never changed, so the end of one can be the end of many.

Every operation runs along the links with a bounded stack, however long the chain is.  What has to
come out in order is first collected in reverse and then turned round.
-/

namespace TextGrammar

universe u v

/-- A sequence of linked elements. -/
inductive Chain (α : Type u) where
  | nil
  | cons (head : α) (tail : Chain α)

namespace Chain

variable {α : Type u} {β : Type v}

instance : Inhabited (Chain α) := ⟨nil⟩

/-! ## Building -/

/-- The chain of one element. -/
def singleton (element : α) : Chain α :=
  cons element nil

/-- The elements of a list, linked. -/
def ofList (elements : List α) : Chain α :=
  elements.foldr cons nil

/-- The characters of a text, linked. -/
def ofText (text : String) : Chain Char :=
  ofList text.toList

/-- `times` copies of an element, in front of `rest`. -/
def replicateOnto (element : α) (rest : Chain α) : Nat → Chain α
  | 0 => rest
  | times + 1 => replicateOnto element (cons element rest) times

/-- `times` copies of an element. -/
def replicate (times : Nat) (element : α) : Chain α :=
  replicateOnto element nil times

/-! ## Taking apart -/

/-- Whether there are no elements. -/
def isEmpty : Chain α → Bool
  | nil => true
  | cons _ _ => false

/-- The first element with the chain behind it. -/
def next? : Chain α → Option (α × Chain α)
  | nil => none
  | cons head tail => some (head, tail)

/-- The first element. -/
def head? (chain : Chain α) : Option α :=
  chain.next?.map Prod.fst

/-- The chain behind the first `count` elements, or the empty chain if there are fewer. -/
def drop : Nat → Chain α → Chain α
  | 0, chain => chain
  | _ + 1, nil => nil
  | count + 1, cons _ tail => drop count tail

/-- The chain behind the first element.  There is nothing behind the empty chain. -/
def tail (chain : Chain α) : Chain α :=
  chain.drop 1

/-! ## Running along a chain -/

/-- Combine the elements from front to back. -/
def foldl (combine : β → α → β) (start : β) : Chain α → β
  | nil => start
  | cons head tail => tail.foldl combine (combine start head)

/-- The number of elements. -/
def size (chain : Chain α) : Nat :=
  chain.foldl (fun count _ => count + 1) 0

/-- The elements in reverse, in front of `rest`. -/
def reverseOnto (chain rest : Chain α) : Chain α :=
  chain.foldl (fun reversed element => cons element reversed) rest

/-- The elements in reverse. -/
def reverse (chain : Chain α) : Chain α :=
  chain.reverseOnto nil

/-- The elements of the first chain, then those of the second, which becomes the end. -/
def append (front back : Chain α) : Chain α :=
  front.reverse.reverseOnto back

instance : Append (Chain α) := ⟨append⟩

/-- The elements as a list. -/
def toList (chain : Chain α) : List α :=
  (chain.foldl (fun reversed element => element :: reversed) []).reverse

/-- Change every element. -/
def map (f : α → β) (chain : Chain α) : Chain β :=
  (chain.foldl (fun reversed element => cons (f element) reversed) nil).reverse

/-- The first `count` elements in reverse, in front of `taken`. -/
def takeOnto (taken : Chain α) : Nat → Chain α → Chain α
  | 0, _ => taken
  | _ + 1, nil => taken
  | count + 1, cons head tail => takeOnto (cons head taken) count tail

/-- The first `count` elements, or all if there are fewer. -/
def take (count : Nat) (chain : Chain α) : Chain α :=
  (takeOnto nil count chain).reverse

/-- The pairs of elements at the same place in reverse, in front of `zipped`. -/
def zipOnto (zipped : Chain (α × β)) : Chain α → Chain β → Chain (α × β)
  | cons left lefts, cons right rights => zipOnto (cons (left, right) zipped) lefts rights
  | _, _ => zipped

/-- The pairs of elements at the same place, as far as both chains go. -/
def zip (left : Chain α) (right : Chain β) : Chain (α × β) :=
  (zipOnto nil left right).reverse

/-- The value of the first pair with the given key. -/
def lookup [BEq α] (key : α) : Chain (α × β) → Option β
  | nil => none
  | cons (present, value) tail => if present == key then some value else tail.lookup key

/-- Whether two chains have equal elements in the same order. -/
def beq [BEq α] : Chain α → Chain α → Bool
  | nil, nil => true
  | cons left lefts, cons right rights => left == right && lefts.beq rights
  | _, _ => false

instance [BEq α] : BEq (Chain α) := ⟨beq⟩

end Chain

end TextGrammar
