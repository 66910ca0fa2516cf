import TextGrammar.Parser.Inspect

/-!
# Recursive grammars

A grammar that refers to itself is the fixed point of the step that builds it from itself.  Every
way round the loop has to pass some text: the inner use finds nothing where no less text remains
than there was at the start.  With that rule the fixed point is an ordinary total function, and it
satisfies one equation (`run_fix`) for every step whatever.
-/

namespace TextGrammar

universe u

namespace Parser

variable {α : Type u}

/-- A parser that is built when it is run. -/
def delay (build : Unit → Parser α) : Parser α :=
  ⟨fun cursor => (build ()).run cursor⟩

@[simp] theorem delay_eq (build : Unit → Parser α) : delay build = build () := rfl

/-- `parser` at cursors with less than `size` bytes to go, and nothing at others. -/
def below (size : Nat) (parser : Parser α) : Parser α :=
  ⟨fun cursor => if cursor.size < size then parser.run cursor else none⟩

/-- What the fixed point of `step` finds at a cursor. -/
def runFix (step : Parser α → Parser α) (cursor : Cursor) : Option (α × Cursor) :=
  (step ⟨fun later => if later.size < cursor.size then runFix step later else none⟩).run cursor
termination_by cursor.size

/-- The parser that `step` builds from itself. -/
def fix (step : Parser α → Parser α) : Parser α :=
  ⟨runFix step⟩

@[simp] theorem run_below (size : Nat) (parser : Parser α) (cursor : Cursor) :
    (parser.below size).run cursor =
      if cursor.size < size then parser.run cursor else none := rfl

/-- A fixed point does what one more step does, with itself used on shorter texts only. -/
theorem run_fix (step : Parser α → Parser α) (cursor : Cursor) :
    (fix step).run cursor = (step ((fix step).below cursor.size)).run cursor := by
  change runFix step cursor = _
  rw [runFix]
  rfl

end Parser

end TextGrammar
