import TextGrammar.Proofs.Parser.Recursion
import TextGrammar.Sample

/-!
# Which parentheses are passed

A pair is passed as a whole or not at all.  If as many closing parentheses follow the opening ones
as there are, all pairs are passed.  If there are fewer, the innermost pairs match, but the first
opening parenthesis that is left without a closing one makes its level start over in front of it.
Then no closing parenthesis follows for the level around it either, and so on outwards: what the
innermost levels have found is given up, and nothing is passed.
-/

namespace TextGrammar.Parentheses

open TextGrammar.Parser

/-! ## One level -/

/-- The grammar comes back to itself behind an opening parenthesis only. -/
theorem nest_eq : nest = ((· + 1) <$> (char '(' *> nest <* char ')') <|> pure 0) := by
  have shrinks : (char '(').Shrinks := by
    apply (skips_char '(').shrinks
    rintro _ _ rfl
    exact List.cons_ne_nil _ _
  apply fix_eq
  intro size
  apply AgreeWithin.or
  · apply AgreeWithin.map
    apply AgreeWithin.seqLeft
    exact AgreeWithin.seqRight_below shrinks size nest
  · exact AgreeWithin.refl size (pure 0)

section Levels

variable {text rest : List Char} {pairs : Nat}

theorem run_nest_of_clearOf (clear : ClearOf (· == '(') text) :
    nest.run (.ofList text) = some (0, .ofList text) := by
  rw [nest_eq]
  simp [char, run_satisfy_of_clearOf clear]

/-- A level that is closed behind what stands in it counts one pair more. -/
theorem run_nest_of_closed
    (inside : nest.run (.ofList text) = some (pairs, .ofList (')' :: rest))) :
    nest.run (.ofList ('(' :: text)) = some (pairs + 1, .ofList rest) := by
  rw [nest_eq]
  simp [inside]

/-- A level that is not closed passes nothing, whatever has been passed in it. -/
theorem run_nest_of_not_closed (inside : nest.run (.ofList text) = some (pairs, .ofList rest))
    (clear : ClearOf (· == ')') rest) :
    nest.run (.ofList ('(' :: text)) = some (0, .ofList ('(' :: text)) := by
  have unclosed : (char ')').run (.ofList rest) = none := run_satisfy_of_clearOf clear
  rw [nest_eq]
  simp [inside, unclosed]

/-! ## All levels -/

/-- As many closing parentheses as opening ones make up pairs, one inside the other. -/
theorem run_nest_pairs (pairs : Nat)
    (innermost : ClearOf (· == '(') (List.replicate pairs ')' ++ rest)) :
    nest.run (.ofList (List.replicate pairs '(' ++ (List.replicate pairs ')' ++ rest))) =
      some (pairs, .ofList rest) := by
  induction pairs generalizing rest with
  | zero => exact run_nest_of_clearOf innermost
  | succ pairs ih =>
      have outermost : List.replicate (pairs + 1) ')' ++ rest =
          List.replicate pairs ')' ++ ')' :: rest := by
        rw [List.replicate_succ', List.append_assoc, List.singleton_append]
      rw [outermost] at innermost ⊢
      exact run_nest_of_closed (ih innermost)

/-- With an opening parenthesis too many nothing is passed.  The innermost level that is not closed
passes nothing, and so in front of an opening parenthesis no level around it is closed either. -/
theorem run_nest_unclosed (closed further : Nat) (clear : ClearOf (· == ')') rest)
    (innermost : ClearOf (· == '(') (List.replicate closed ')' ++ rest)) :
    nest.run (.ofList (List.replicate (closed + further + 1) '(' ++
        (List.replicate closed ')' ++ rest))) =
      some (0, .ofList (List.replicate (closed + further + 1) '(' ++
        (List.replicate closed ')' ++ rest))) := by
  induction further with
  | zero => exact run_nest_of_not_closed (run_nest_pairs closed innermost) clear
  | succ further ih => exact run_nest_of_not_closed ih (clearOf_cons.mpr rfl)

end Levels

/-! ## Whole texts -/

/-- How many of a character come first. -/
def leading (character : Char) (text : List Char) : Nat :=
  (text.takeWhile (· == character)).length

theorem replicate_leading_append (character : Char) (text : List Char) :
    List.replicate (leading character text) character ++ text.dropWhile (· == character) =
      text := by
  have run : text.takeWhile (· == character) =
      List.replicate (leading character text) character := by
    apply List.eq_replicate_of_mem
    intro other member
    exact beq_iff_eq.mp (List.all_eq_true.mp List.all_takeWhile other member)
  rw [← run, List.takeWhile_append_dropWhile]

/-- How many opening parentheses come first. -/
def opened (text : String) : Nat :=
  leading '(' text.toList

/-- How many closing parentheses come directly behind the opening ones. -/
def closed (text : String) : Nat :=
  leading ')' (text.toList.dropWhile (· == '('))

variable {text : String} {pairs : Nat}

/-- A text begins with the two runs, and neither of them could be longer. -/
theorem exists_levels (text : String) :
    ∃ rest, text.toList =
        List.replicate (opened text) '(' ++ (List.replicate (closed text) ')' ++ rest) ∧
      ClearOf (· == '(') (List.replicate (closed text) ')' ++ rest) ∧
      ClearOf (· == ')') rest := by
  have behind := replicate_leading_append ')' (text.toList.dropWhile (· == '('))
  refine ⟨_, ?_, ?_, clearOf_dropWhile (text.toList.dropWhile (· == '('))⟩
  · rw [closed, behind]
    exact (replicate_leading_append '(' text.toList).symm
  · rw [closed, behind]
    exact clearOf_dropWhile text.toList

/-- The innermost levels match, as many as there are parentheses of both kinds for. -/
theorem run_nest_inside (withinOpened : pairs ≤ opened text) (withinClosed : pairs ≤ closed text) :
    nest.run (.ofList (text.toList.drop (opened text - pairs))) =
      some (pairs, .ofList (text.toList.drop (opened text + pairs))) := by
  obtain ⟨rest, split, innermost, -⟩ := exists_levels text
  obtain ⟨outside, openedEq⟩ := Nat.exists_eq_add_of_le' withinOpened
  obtain ⟨further, closedEq⟩ := Nat.exists_eq_add_of_le withinClosed
  rw [openedEq, closedEq, ← List.replicate_append_replicate (n := pairs),
    List.append_assoc] at split
  rw [closedEq, ← List.replicate_append_replicate, List.append_assoc] at innermost
  rw [openedEq, Nat.add_sub_cancel, ← List.drop_drop, split]
  rw [List.drop_left' List.length_replicate, List.drop_left' List.length_replicate]
  rw [← List.replicate_append_replicate, List.append_assoc, List.drop_left' List.length_replicate]
  exact run_nest_pairs pairs innermost

/-- If there are not enough closing parentheses, nothing is passed. -/
theorem run_nest_of_lt (short : closed text < opened text) :
    nest.run (.ofText text) = some (0, .ofText text) := by
  obtain ⟨rest, split, innermost, clear⟩ := exists_levels text
  obtain ⟨further, openedEq⟩ := Nat.exists_eq_add_of_lt short
  rw [openedEq] at split
  rw [Cursor.ofText_eq_ofList, split]
  exact run_nest_unclosed _ further clear innermost

/-- The grammar is made of itself.  If at least as many closing parentheses stand directly behind
the opening ones at the beginning of a text as there are of these, it passes all of these with as
many closing ones.  If there are fewer it passes nothing, although the innermost levels match. -/
theorem nest_exact :
    nest = ((· + 1) <$> (char '(' *> delay (fun _ => nest) <* char ')') <|> pure 0) ∧
      ∀ text : String,
        (nest.parse text =
          if opened text ≤ closed text then
            some (opened text, .ofList (text.toList.drop (opened text + opened text)))
          else some (0, text)) ∧
        nest.parse (.ofList (text.toList.drop (opened text - min (opened text) (closed text)))) =
          some (min (opened text) (closed text),
            .ofList (text.toList.drop (opened text + min (opened text) (closed text)))) := by
  refine ⟨nest_eq, fun text => ⟨?_, ?_⟩⟩
  · by_cases enough : opened text ≤ closed text
    · have found := run_nest_inside (Nat.le_refl (opened text)) enough
      rw [Nat.sub_self, List.drop_zero, ← Cursor.ofText_eq_ofList] at found
      rw [if_pos enough, parse, found]
      rfl
    · have found := run_nest_of_lt (Nat.lt_of_not_le enough)
      rw [if_neg enough, parse, found]
      simp
  · have found := run_nest_inside (Nat.min_le_left (opened text) (closed text))
      (Nat.min_le_right (opened text) (closed text))
    rw [parse, Cursor.ofText_eq_ofList, String.toList_ofList, found]
    rfl

end TextGrammar.Parentheses
