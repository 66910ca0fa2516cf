import TextGrammar.Proofs.Json.Exactness

/-!
# The order of the alternatives

The alternatives for a value exclude each other: each finds values of one kind only, and the first
character announces the kind.  So they may be tried in any order.  The grammar that tries them in
another order at every level of nesting, or in a different one at each, is the same grammar.
-/

namespace TextGrammar.Json

open TextGrammar.Parser

/-- All kinds of value, in the order in which they are tried. -/
def kinds : List Kind :=
  scalarKinds ++ containerKinds

/-- The alternative for values of one kind.  Containers are made of what `part?` finds, and where
there is no such parser no further bracket may be opened. -/
def alternativeOf (options : Options) (part? : Option (Parser Value)) (kind : Kind) :
    Parser Value :=
  match part? with
  | some part => alternative options part kind
  | none => if kind ∈ containerKinds then fail else alternative options fail kind

/-- What containers are made of where `depth` brackets may be opened. -/
def part? (options : Options) : Nat → Option (Parser Value)
  | 0 => none
  | depth + 1 => some (value options depth)

/-- The alternatives for a value where `depth` brackets may be opened. -/
def alternatives (options : Options) (depth : Nat) : List (Parser Value) :=
  kinds.map (alternativeOf options (part? options depth))

/-- A value amid blanks, with at most `depth` brackets open at once.  Where `level` brackets may be
opened the kinds are tried in the order `order level`, in the value itself and in its parts. -/
def valueInOrder (order : Nat → List Kind) (options : Options) : Nat → Parser Value
  | 0 => amidBlanks options (choice ((order 0).map (alternativeOf options none)))
  | depth + 1 =>
      let part := delay fun _ => valueInOrder order options depth
      amidBlanks options (choice ((order (depth + 1)).map (alternativeOf options (some part))))

variable {options : Options} {depth : Nat}

/-- Where no bracket may be opened there is no container to be found. -/
theorem reads_fail_container {kind : Kind} (container : kind ∈ containerKinds) :
    (fail : Parser Value).Reads (OfKind options 0 kind) := by
  refine reads_fail.congr fun passed value rest => ?_
  constructor
  · exact False.elim
  · rintro ⟨rfl, bare, -⟩
    have scalar := bare.kind_mem_scalarKinds
    revert container scalar
    cases value.kind <;> decide

/-- Each alternative finds the values of its kind. -/
theorem reads_alternativeOf (options : Options) (depth : Nat) (kind : Kind) :
    (alternativeOf options (part? options depth) kind).Reads (OfKind options depth kind) := by
  cases depth with
  | zero =>
      rw [part?, alternativeOf]
      split
      · next container => exact reads_fail_container container
      · next noContainer =>
          refine reads_scalar options 0 fail kind ?_
          revert noContainer
          cases kind <;> decide
  | succ depth =>
      cases kind with
      | null => exact reads_null
      | bool => exact reads_bool
      | number => exact reads_numberValue
      | string => exact reads_stringValue
      | array => exact reads_array (readsParts_value options depth)
      | object => exact reads_object (readsParts_memberValue options depth)

theorem pairwise_excludes_alternatives (options : Options) (depth : Nat) :
    (alternatives options depth).Pairwise Excludes := by
  have distinct : kinds.Nodup := by decide
  rw [alternatives, List.pairwise_map]
  exact distinct.imp fun different =>
    excludes_of_kinds (reads_alternativeOf options depth _) (reads_alternativeOf options depth _)
      different

/-- The grammar is the choice among the alternatives, those included that find nothing because no
bracket may be opened. -/
theorem value_eq_choice (options : Options) (depth : Nat) :
    value options depth = amidBlanks options (choice (alternatives options depth)) := by
  cases depth with
  | succ depth => rfl
  | zero =>
      have scalarsOnly : choice (scalars options) = choice (alternatives options 0) := by
        ext1 cursor
        simp [alternatives, kinds, scalarKinds, containerKinds, part?, alternativeOf, alternative,
          scalars]
      rw [value_zero, scalarsOnly]

/-- At no place do two alternatives find something, and in whatever order they are tried at each
level the same values are found, and the same text is left. -/
theorem alternatives_in_any_order (options : Options) (depth : Nat) :
    (alternatives options depth).Pairwise Excludes ∧
      ∀ order : Nat → List Kind, (∀ level, (order level).Perm kinds) →
        valueInOrder order options depth = value options depth := by
  refine ⟨pairwise_excludes_alternatives options depth, fun order perm => ?_⟩
  have reordered (level : Nat) :
      choice ((order level).map (alternativeOf options (part? options level))) =
        choice (alternatives options level) :=
    (choice_eq_of_perm (pairwise_excludes_alternatives options level)
      ((perm level).symm.map _)).symm
  -- The parts of containers are tried in another order too, one level further in.
  induction depth with
  | zero => rw [value_eq_choice, ← reordered, valueInOrder, part?]
  | succ depth ih => rw [value_eq_choice, ← reordered, valueInOrder, delay_eq, ih, part?]

/-- Objects first and null last, for an array and for the truth value in it. -/
theorem alternatives_in_any_order_reversed :
    kinds.reverse.Perm kinds ∧
      (valueInOrder (fun _ => kinds.reverse) {} 1).run (.ofList "[true]".toList) =
        some (.array [.bool true], .ofList []) := by
  have reversed : kinds.reverse.Perm kinds := List.reverse_perm kinds
  have array : Bare {} 1 "[true]".toList (.array [.bool true]) :=
    bare_array_iff.mpr (.filled (List.cons_ne_nil ("true".toList, Value.bool true) [])
      (by simpa using Bare.truth.element))
  have found := (reads_value {} 1).run_append (array.element.before_of_delimited delimited_nil)
  rw [List.append_nil] at found
  refine ⟨reversed, ?_⟩
  rw [(alternatives_in_any_order {} 1).2 _ fun _ => reversed, found]

end TextGrammar.Json
