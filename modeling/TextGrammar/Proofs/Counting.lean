/-!
# Turns counted in a machine word

A loop that changes a state may stop by itself or by the number of its turns.  If that number is
counted upwards in a machine word, the count stays below its limit and cannot overflow, and so there
are as many turns as the limit says (`stepBelow_eq`), however near it is to the greatest word.
-/

namespace TextGrammar

universe u

/-- The word behind one that is exceeded is its successor. -/
theorem toNat_add_one {turn limit : USize} (below : turn < limit) :
    (turn + 1).toNat = turn.toNat + 1 := by
  have next := Nat.lt_of_le_of_lt (USize.lt_iff_toNat_lt.mp below) limit.toNat_lt_size
  rw [USize.toNat_add, USize.toNat_one]
  exact Nat.mod_eq_of_lt next

variable {σ : Type u}

/-- The state after a number of steps, or after the last one if there are fewer. -/
def stepTimes (step : σ → Option σ) : Nat → σ → σ
  | 0, state => state
  | times + 1, state =>
      match step state with
      | none => state
      | some next => stepTimes step times next

/-- The state after a step for every turn from `turn` to below `limit`, or after the last step if
there are fewer.  The turns are counted in a machine word. -/
def stepBelow (step : σ → Option σ) (limit turn : USize) (state : σ) : σ :=
  if turn < limit then
    match step state with
    | none => state
    | some next => stepBelow step limit (turn + 1) next
  else
    state
termination_by limit.toNat - turn.toNat
decreasing_by
  rename_i below
  rw [toNat_add_one below]
  exact Nat.sub_succ_lt_self _ _ (USize.lt_iff_toNat_lt.mp below)

/-- Below its limit a loop takes as many turns as are missing there. -/
theorem stepBelow_eq (step : σ → Option σ) (limit turn : USize) (state : σ) :
    stepBelow step limit turn state = stepTimes step (limit.toNat - turn.toNat) state := by
  fun_induction stepBelow step limit turn state with
  | case1 turn state below stopped =>
      have less := USize.lt_iff_toNat_lt.mp below
      rw [← Nat.succ_pred_eq_of_pos (Nat.sub_pos_of_lt less), stepTimes, stopped]
  | case2 turn state below next changed ih =>
      have less := USize.lt_iff_toNat_lt.mp below
      have turns : limit.toNat - turn.toNat = limit.toNat - (turn + 1).toNat + 1 := by
        rw [toNat_add_one below]
        omega
      rw [turns, stepTimes, changed, ih]
  | case3 turn state reached =>
      have full := USize.le_iff_toNat_le.mp (USize.not_lt.mp reached)
      rw [Nat.sub_eq_zero_of_le full, stepTimes]

theorem stepBelow_zero (step : σ → Option σ) (limit : USize) (state : σ) :
    stepBelow step limit 0 state = stepTimes step limit.toNat state := by
  rw [stepBelow_eq, USize.toNat_zero, Nat.sub_zero]

end TextGrammar
