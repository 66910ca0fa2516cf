import TextGrammar.Proofs.Parser.Advance
import TextGrammar.Proofs.Parser.Separation

/-!
# Grammars that refer to themselves

A fixed point uses itself on shorter texts only.  That is no restriction if the step passes
something before it comes back to itself: two parsers that agree on shorter texts then make steps
that agree, and the fixed point is what the step makes of it as it is (`fix_eq`).

Whatever may be said of all matches of a step, if it may be said of all matches of the parser that
is put in, may be said of the fixed point (`fix_finds`).
-/

namespace TextGrammar.Parser

universe u v

variable {α : Type u} {β : Type v}

/-! ## Parsers that agree on short texts -/

/-- Wherever no more than `size` bytes are left both parsers find the same. -/
def AgreeWithin (size : Nat) (left right : Parser α) : Prop :=
  ∀ cursor, cursor.size ≤ size → left.run cursor = right.run cursor

/-- Every match leaves less text than there was. -/
def Shrinks (parser : Parser α) : Prop :=
  ∀ start value rest, parser.run start = some (value, rest) → rest.size < start.size

/-- A parser that never passes the empty text shrinks what is left. -/
theorem Skips.shrinks {parser : Parser α} {Passes : List Char → List Char → Prop}
    (skips : parser.Skips Passes) (filled : ∀ passed rest, Passes passed rest → passed ≠ []) :
    parser.Shrinks := by
  intro start value rest found
  obtain ⟨passed, split, passes⟩ := (skips start rest).mp ⟨value, found⟩
  exact Cursor.size_lt_of_passed split (filled _ _ passes)

namespace AgreeWithin

variable {size : Nat} {left right : Parser α}

theorem refl (size : Nat) (parser : Parser α) : AgreeWithin size parser parser :=
  fun _ _ => rfl

theorem map (f : α → β) (agree : AgreeWithin size left right) :
    AgreeWithin size (left.map f) (right.map f) := by
  intro cursor within
  rw [run_map, run_map, agree cursor within]

theorem or {other otherRight : Parser α} (agree : AgreeWithin size left right)
    (agreeOther : AgreeWithin size other otherRight) :
    AgreeWithin size (left <|> other) (right <|> otherRight) := by
  intro cursor within
  rw [run_orElse, run_orElse, agree cursor within, agreeOther cursor within]

theorem seqLeft {β : Type u} (agree : AgreeWithin size left right) (second : Parser β) :
    AgreeWithin size (left <* second) (right <* second) := by
  intro cursor within
  rw [run_seqLeft, run_seqLeft, agree cursor within]

/-- Behind something that has been passed there are only shorter texts. -/
theorem seqRight_below {β : Type u} {first : Parser α} (shrinks : first.Shrinks) (size : Nat)
    (parser : Parser β) : AgreeWithin size (first *> parser.below size) (first *> parser) := by
  intro cursor within
  rw [run_seqRight, run_seqRight]
  cases found : first.run cursor with
  | none => rfl
  | some result =>
      have shorter := Nat.lt_of_lt_of_le (shrinks _ _ _ found) within
      simp only [Option.bind_some, run_below, if_pos shorter]

/-- A repetition goes on with shorter texts only. -/
theorem gather (agree : AgreeWithin size left right) {cursor : Cursor}
    (within : cursor.size ≤ size) : left.gather [] cursor = right.gather [] cursor := by
  induction length : cursor.size using Nat.strongRecOn generalizing cursor with
  | ind length ih =>
      subst length
      by_cases stuck : right.Stuck cursor
      · have stuckLeft : left.Stuck cursor := by
          rw [Stuck, agree cursor within]
          exact stuck
        rw [gather_of_stuck stuck, gather_of_stuck stuckLeft]
      · simp only [Stuck, Classical.not_forall, Classical.not_not] at stuck
        obtain ⟨value, rest, found, shorter⟩ := stuck
        have foundLeft := found
        rw [← agree cursor within] at foundLeft
        have further := ih rest.size shorter (Nat.le_of_lt (Nat.lt_of_lt_of_le shorter within)) rfl
        rw [gather_of_step found shorter, gather_of_step foundLeft shorter, further]

theorem sepBy1 {separator : Parser β} (agree : AgreeWithin size left right)
    (advances : right.Advances) (advancesSeparator : separator.Advances) :
    AgreeWithin size (Parser.sepBy1 left separator) (Parser.sepBy1 right separator) := by
  have behind : AgreeWithin size (behindSeparator separator left)
      (behindSeparator separator right) := by
    intro cursor within
    rw [behindSeparator, behindSeparator, run_zipWith, run_zipWith]
    cases found : separator.run cursor with
    | none => rfl
    | some result =>
        have further := Cursor.size_le_of_suffix (advancesSeparator _ _ _ found)
        simp only [Option.bind_some, agree result.2 (Nat.le_trans further within)]
  intro cursor within
  rw [run_sepBy1, run_sepBy1, agree cursor within]
  cases found : right.run cursor with
  | none => rfl
  | some result =>
      have further := Cursor.size_le_of_suffix (advances _ _ _ found)
      simp only [Option.map_some, behind.gather (Nat.le_trans further within)]

end AgreeWithin

/-! ## Fixed points -/

section Fixed

variable {step : Parser α → Parser α}

/-- A fixed point is what the step makes of it, if the step comes back to it behind passed text
only. -/
theorem fix_eq
    (guarded : ∀ size, AgreeWithin size (step ((fix step).below size)) (step (fix step))) :
    fix step = step (fix step) := by
  ext1 cursor
  rw [run_fix]
  exact guarded cursor.size cursor (Nat.le_refl _)

/-- All matches are such that `Allowed` holds of where they begin, their value and where they
end. -/
def Finds (parser : Parser α) (Allowed : Cursor → α → Cursor → Prop) : Prop :=
  ∀ start value rest, parser.run start = some (value, rest) → Allowed start value rest

/-- What a step keeps of all parsers its fixed point has. -/
theorem fix_finds {Allowed : Cursor → α → Cursor → Prop}
    (keeps : ∀ self : Parser α, self.Finds Allowed → (step self).Finds Allowed) :
    (fix step).Finds Allowed := by
  intro start
  induction size : start.size using Nat.strongRecOn generalizing start with
  | ind size ih =>
      subst size
      rw [run_fix]
      apply keeps
      intro later value rest found
      rw [run_below] at found
      by_cases shorter : later.size < start.size
      · rw [if_pos shorter] at found
        exact ih later.size shorter later rfl value rest found
      · rw [if_neg shorter] at found
        cases found

end Fixed

end TextGrammar.Parser
