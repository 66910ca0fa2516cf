import TextGrammar.Chain.Inspect

/-!
# Walks along a chain

A walk takes the elements of a chain, one after the other, and what it has not taken is a chain
again.  It changes no link, and so whoever else holds the chain, or an end of it, holds it still.

The elements that a walk takes, with those of the chain that is left to it, are the elements of the
chain in their order (`walk_iff`).  A walk can be left at any link, and it takes them all if it goes
on until there is none (`collect_eq`).
-/

namespace TextGrammar.Chain

universe u

variable {α : Type u} {chain tail rest : Chain α} {head : α} {elements : List α}

theorem next?_eq_some_iff : chain.next? = some (head, tail) ↔ chain = cons head tail := by
  cases chain <;> simp [next?]

theorem next?_eq_none_iff : chain.next? = none ↔ chain = nil := by
  cases chain <;> simp [next?]

theorem toList_of_next? (taken : chain.next? = some (head, tail)) :
    chain.toList = head :: tail.toList := by
  rw [next?_eq_some_iff.mp taken, toList_cons]

/-- A walk along a chain takes some elements and is left with the rest. -/
inductive Walk : Chain α → List α → Chain α → Prop where
  | stay (chain : Chain α) : Walk chain [] chain
  | step {chain tail rest : Chain α} {head : α} {elements : List α} :
      chain.next? = some (head, tail) → Walk tail elements rest →
      Walk chain (head :: elements) rest

/-- What a walk takes is what it leaves out of the chain. -/
theorem Walk.eq_append (walk : Walk chain elements rest) : chain = ofList elements ++ rest := by
  apply toList_inj.mp
  induction walk with
  | stay chain => simp
  | step taken _ ih =>
      rw [toList_of_next? taken, ih]
      simp

/-- The elements in front of a chain can be taken, and the chain is left. -/
theorem walk_append (elements : List α) (rest : Chain α) :
    Walk (ofList elements ++ rest) elements rest := by
  induction elements with
  | nil =>
      have whole : ofList [] ++ rest = rest := toList_inj.mp (by simp)
      rw [whole]
      exact .stay rest
  | cons head elements ih =>
      have linked : ofList (head :: elements) ++ rest = cons head (ofList elements ++ rest) :=
        toList_inj.mp (by simp)
      exact .step (next?_eq_some_iff.mpr linked) ih

/-- A walk takes the elements in their order, as many as it wants, and leaves the others. -/
theorem walk_iff : Walk chain elements rest ↔ chain = ofList elements ++ rest := by
  constructor
  · exact Walk.eq_append
  · rintro rfl
    exact walk_append elements rest

/-- The elements that a walk takes until there is none. -/
def collect (chain : Chain α) : List α :=
  match taken : chain.next? with
  | none => []
  | some (head, tail) =>
      have fewer : tail.toList.length < chain.toList.length := by
        rw [toList_of_next? taken]
        exact Nat.lt_succ_self _
      head :: tail.collect
termination_by chain.toList.length

/-- A walk that is not left early ends behind the last element. -/
theorem walk_collect (chain : Chain α) : Walk chain chain.collect nil := by
  fun_induction collect chain with
  | case1 chain ended =>
      rw [next?_eq_none_iff.mp ended]
      exact .stay nil
  | case2 chain head tail taken fewer ih => exact .step taken ih

theorem collect_eq (chain : Chain α) : chain.collect = chain.toList := by
  calc
    chain.collect = (ofList chain.collect ++ nil).toList := by simp
    _ = chain.toList := congrArg toList (walk_collect chain).eq_append.symm

end TextGrammar.Chain
