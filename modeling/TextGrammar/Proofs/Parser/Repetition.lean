import TextGrammar.Proofs.Parser.Reads

/-!
# What a repetition passes

A repetition yields the longest succession of shrinking matches: each begins where the one before
ended and leaves less text, and where the last one ended no further one does.  This holds of every
parser whatever (`gather_eq_iff`).

For the parsers that a grammar repeats more is known.  A repeated character class passes the longest
run of its characters, and a parser that needs to see no more than it passes can be repeated piece
by piece.
-/

namespace TextGrammar

universe u

/-- No character that `accepts` holds of comes first. -/
def ClearOf (accepts : Char → Bool) (text : List Char) : Prop :=
  ∀ character, text.head? = some character → accepts character = false

section ClearOf

variable {accepts : Char → Bool}

@[simp] theorem clearOf_nil : ClearOf accepts [] := by
  simp [ClearOf]

@[simp] theorem clearOf_cons {character : Char} {text : List Char} :
    ClearOf accepts (character :: text) ↔ accepts character = false := by
  simp [ClearOf]

/-- Two characters of which one is accepted and one is not are different. -/
theorem ne_of_accepts {character other : Char} (accepted : accepts character = true)
    (refused : accepts other = false) : character ≠ other := by
  rintro rfl
  rw [accepted] at refused
  exact Bool.noConfusion refused

theorem ClearOf.mono {other : Char → Bool} {text : List Char} (clear : ClearOf accepts text)
    (within : ∀ character, other character = true → accepts character = true) :
    ClearOf other text := by
  intro character head
  cases accepted : other character with
  | false => rfl
  | true => rw [← clear character head, within character accepted]

theorem clearOf_append {front back : List Char} (filled : front ≠ []) :
    ClearOf accepts (front ++ back) ↔ ClearOf accepts front := by
  cases front with
  | nil => exact absurd rfl filled
  | cons character front => simp

theorem ClearOf.append {front back : List Char} (clear : ClearOf accepts front)
    (clearBehind : ClearOf accepts back) : ClearOf accepts (front ++ back) := by
  cases front with
  | nil => exact clearBehind
  | cons character front => exact clearOf_cons.mpr (clearOf_cons.mp clear)

theorem clearOf_dropWhile (text : List Char) : ClearOf accepts (text.dropWhile accepts) := by
  induction text with
  | nil => exact clearOf_nil
  | cons character text ih =>
      cases accepted : accepts character with
      | true => simpa [accepted] using ih
      | false => simp [accepted]

/-- The longest run of accepted characters in front of a text that begins with none is the run. -/
theorem takeWhile_append_clearOf {front back : List Char}
    (accepted : ∀ character ∈ front, accepts character = true) (clear : ClearOf accepts back) :
    (front ++ back).takeWhile accepts = front := by
  rw [List.takeWhile_append_of_pos accepted]
  cases back with
  | nil => simp
  | cons character back => simp [clearOf_cons.mp clear]

theorem dropWhile_append_clearOf {front back : List Char}
    (accepted : ∀ character ∈ front, accepts character = true) (clear : ClearOf accepts back) :
    (front ++ back).dropWhile accepts = back := by
  rw [List.dropWhile_append_of_pos accepted]
  cases back with
  | nil => simp
  | cons character back => simp [clearOf_cons.mp clear]

end ClearOf

theorem Cursor.size_lt_of_passed {start rest : Cursor} {passed : List Char}
    (split : start.remaining = passed ++ rest.remaining) (filled : passed ≠ []) :
    rest.size < start.size := by
  have positive : byteSize passed ≠ 0 := fun none => filled (byteSize_eq_zero.mp none)
  rw [rest.size_eq, start.size_eq, split, byteSize_append]
  omega

namespace Parser

variable {α : Type u} {parser : Parser α}

/-! ## Successive matches -/

/-- Matches of `parser` one behind the other, each of which leaves less text than there was. -/
inductive Successive (parser : Parser α) : Cursor → List α → Cursor → Prop where
  | done (cursor : Cursor) : Successive parser cursor [] cursor
  | step {start next rest : Cursor} {value : α} {values : List α} :
      parser.run start = some (value, next) → next.size < start.size →
      Successive parser next values rest → Successive parser start (value :: values) rest

/-- No match of `parser` at `cursor` leaves less text than there is. -/
def Stuck (parser : Parser α) (cursor : Cursor) : Prop :=
  ∀ value rest, parser.run cursor = some (value, rest) → ¬rest.size < cursor.size

theorem stuck_of_none {cursor : Cursor} (nothing : parser.run cursor = none) :
    parser.Stuck cursor := by
  intro value rest found
  simp [nothing] at found

theorem gather_of_stuck {cursor : Cursor} (stuck : parser.Stuck cursor) :
    parser.gather [] cursor = ([], cursor) := by
  cases found : parser.run cursor with
  | none => exact gather_of_none [] found
  | some result => exact gather_of_not_lt [] found (stuck _ _ found)

theorem gather_of_step {start next : Cursor} {value : α}
    (found : parser.run start = some (value, next)) (shrinks : next.size < start.size) :
    parser.gather [] start =
      (value :: (parser.gather [] next).1, (parser.gather [] next).2) := by
  rw [gather_of_lt [] found shrinks, gather_eq]
  rfl

/-- A repetition finds the successive matches up to where there is no further one. -/
theorem gather_eq_iff {start rest : Cursor} {values : List α} :
    parser.gather [] start = (values, rest) ↔
      Successive parser start values rest ∧ parser.Stuck rest := by
  constructor
  · -- Each match shortens the text, so the induction is on how much of it there is.
    induction size : start.size using Nat.strongRecOn generalizing start values with
    | ind size ih =>
        subst size
        intro gathered
        by_cases stuck : parser.Stuck start
        · rw [gather_of_stuck stuck, Prod.mk.injEq] at gathered
          obtain ⟨rfl, rfl⟩ := gathered
          exact ⟨.done start, stuck⟩
        · simp only [Stuck, Classical.not_forall, Classical.not_not] at stuck
          obtain ⟨value, next, found, shrinks⟩ := stuck
          rw [gather_of_step found shrinks, Prod.mk.injEq] at gathered
          obtain ⟨rfl, restEq⟩ := gathered
          obtain ⟨successive, stuck⟩ := ih next.size shrinks rfl (Prod.ext rfl restEq)
          exact ⟨.step found shrinks successive, stuck⟩
  · rintro ⟨successive, stuck⟩
    induction successive with
    | done cursor => exact gather_of_stuck stuck
    | step found shrinks _ ih => rw [gather_of_step found shrinks, ih stuck]

/-- A repetition that asks for a match is one that has found something. -/
theorem run_many1_eq_some_iff {start rest : Cursor} {values : List α} :
    parser.many1.run start = some (values, rest) ↔
      values ≠ [] ∧ parser.gather [] start = (values, rest) := by
  rw [run_many1]
  cases found : parser.run start with
  | none =>
      rw [gather_of_none [] found]
      simp +contextual [eq_comm]
  | some result =>
      obtain ⟨value, next⟩ := result
      by_cases shrinks : next.size < start.size
      · rw [gather_of_step found shrinks]
        simp only [if_pos shrinks, Option.some.injEq]
        refine ⟨fun same => ⟨?_, same⟩, And.right⟩
        obtain ⟨rfl, -⟩ := Prod.mk.inj same
        exact List.cons_ne_nil _ _
      · rw [gather_of_not_lt [] found shrinks]
        simp +contextual [shrinks, eq_comm]

/-! ## Pieces -/

/-- A text that consists of pieces, with their values in order. -/
inductive Strung (Piece : List Char → α → Prop) : List Char → List α → Prop where
  | nil : Strung Piece [] []
  | cons {piece text : List Char} {value : α} {values : List α} :
      Piece piece value → Strung Piece text values →
      Strung Piece (piece ++ text) (value :: values)

variable {Piece : List Char → α → Prop}

@[simp] theorem strung_nil {text : List Char} : Strung Piece text [] ↔ text = [] := by
  constructor
  · rintro ⟨⟩
    rfl
  · rintro rfl
    exact .nil

@[simp] theorem strung_cons {text : List Char} {value : α} {values : List α} :
    Strung Piece text (value :: values) ↔
      ∃ piece behind, text = piece ++ behind ∧ Piece piece value ∧ Strung Piece behind values := by
  constructor
  · intro strung
    cases strung with
    | cons valid strung => exact ⟨_, _, rfl, valid, strung⟩
  · rintro ⟨piece, behind, rfl, valid, strung⟩
    exact .cons valid strung

/-- What is made of pieces of one kind is made of pieces of another, if the pieces are of that kind as
far as only characters that `Only` holds of occur in them. -/
theorem Strung.imp {Other : List Char → α → Prop} {Only : Char → Prop} {text : List Char}
    {values : List α} (strung : Strung Piece text values)
    (only : ∀ character ∈ text, Only character)
    (imp : ∀ piece value, (∀ character ∈ piece, Only character) → Piece piece value →
      Other piece value) : Strung Other text values := by
  induction strung with
  | nil => exact .nil
  | cons valid _ ih =>
      obtain ⟨onlyPiece, onlyText⟩ := List.forall_mem_append.mp only
      exact .cons (imp _ _ onlyPiece valid) (ih onlyText)

theorem Successive.strung (reads : parser.Reads fun passed value _ => Piece passed value)
    {start rest : Cursor} {values : List α} (successive : Successive parser start values rest) :
    ∃ passed, start.remaining = passed ++ rest.remaining ∧ Strung Piece passed values := by
  induction successive with
  | done cursor => exact ⟨[], rfl, .nil⟩
  | step found _ _ ih =>
      obtain ⟨piece, split, valid⟩ := (reads _ _ _).mp found
      obtain ⟨text, splitText, strung⟩ := ih
      exact ⟨piece ++ text, by rw [split, splitText, List.append_assoc], .cons valid strung⟩

theorem Strung.successive (reads : parser.Reads fun passed value _ => Piece passed value)
    (filled : ∀ passed value, Piece passed value → passed ≠ []) {passed : List Char}
    {values : List α} (strung : Strung Piece passed values) (rest : List Char) :
    Successive parser (.ofList (passed ++ rest)) values (.ofList rest) := by
  induction strung with
  | nil => exact .done _
  | cons valid _ ih =>
      rw [List.append_assoc]
      exact .step (reads.run_append valid)
        (Cursor.size_lt_of_passed rfl (filled _ _ valid)) ih

/-- A parser that needs to see no more than it passes is repeated piece by piece, up to where no
further piece begins. -/
theorem reads_many (reads : parser.Reads fun passed value _ => Piece passed value)
    (filled : ∀ passed value, Piece passed value → passed ≠ []) :
    (many parser).Reads fun passed values rest =>
      Strung Piece passed values ∧
        ∀ front value back, rest = front ++ back → ¬Piece front value := by
  intro start values rest
  have stuck_iff : parser.Stuck rest ↔
      ∀ front value back, rest.remaining = front ++ back → ¬Piece front value := by
    constructor
    · intro stuck front value back split valid
      exact stuck value (.ofList back) ((reads _ _ _).mpr ⟨front, split, valid⟩)
        (Cursor.size_lt_of_passed split (filled _ _ valid))
    · intro refused value later found
      obtain ⟨front, split, valid⟩ := (reads _ _ _).mp found
      exact absurd valid (refused _ _ _ split)
  rw [run_many, Option.some.injEq, gather_eq_iff, stuck_iff]
  constructor
  · rintro ⟨successive, refused⟩
    obtain ⟨passed, split, strung⟩ := successive.strung reads
    exact ⟨passed, split, strung, refused⟩
  · rintro ⟨passed, split, strung, refused⟩
    have successive := strung.successive reads filled rest.remaining
    rw [← split, Cursor.ofList_remaining, Cursor.ofList_remaining] at successive
    exact ⟨successive, refused⟩

/-- A counted repetition passes as many pieces as are counted. -/
theorem reads_count (reads : parser.Reads fun passed value _ => Piece passed value) (times : Nat) :
    (count times parser).Reads fun passed values _ =>
      Strung Piece passed values ∧ values.length = times := by
  rw [count]
  induction times with
  | zero =>
      refine (reads_pure []).congr fun passed values rest => ?_
      rw [List.length_eq_zero_iff]
      constructor
      · rintro ⟨rfl, rfl⟩
        exact ⟨.nil, rfl⟩
      · rintro ⟨strung, rfl⟩
        exact ⟨strung_nil.mp strung, rfl⟩
  | succ times ih =>
      rw [List.replicate_succ, sequence_cons]
      refine (reads.zipWith List.cons ih).congr fun passed values rest => ?_
      constructor
      · rintro ⟨piece, text, value, others, rfl, valid, ⟨strung, rfl⟩, rfl⟩
        exact ⟨.cons valid strung, rfl⟩
      · rintro ⟨strung, length⟩
        obtain ⟨value, others, rfl⟩ := List.exists_cons_of_length_eq_add_one length
        obtain ⟨piece, text, rfl, valid, strung⟩ := strung_cons.mp strung
        exact ⟨piece, text, value, others, rfl, valid, ⟨strung, Nat.succ.inj length⟩, rfl⟩

/-! ## Runs of characters -/

theorem strung_characters {accepts : Char → Bool} {passed found : List Char} :
    Strung (fun piece character => piece = [character] ∧ accepts character = true) passed found ↔
      found = passed ∧ ∀ character ∈ passed, accepts character = true := by
  induction found generalizing passed with
  | nil =>
      rw [strung_nil]
      constructor
      · rintro rfl
        exact ⟨rfl, by simp⟩
      · rintro ⟨rfl, -⟩
        rfl
  | cons character found ih =>
      rw [strung_cons]
      constructor
      · rintro ⟨_, behind, rfl, ⟨rfl, accepted⟩, strung⟩
        obtain ⟨rfl, all⟩ := ih.mp strung
        exact ⟨rfl, List.forall_mem_cons.mpr ⟨accepted, all⟩⟩
      · rintro ⟨rfl, all⟩
        obtain ⟨accepted, others⟩ := List.forall_mem_cons.mp all
        exact ⟨[character], found, rfl, ⟨rfl, accepted⟩, ih.mpr ⟨rfl, others⟩⟩

/-- A repeated character class passes the longest run of its characters. -/
theorem reads_many_satisfy (accepts : Char → Bool) :
    (many (satisfy accepts)).Reads fun passed found rest =>
      (found = passed ∧ ∀ character ∈ passed, accepts character = true) ∧
        ClearOf accepts rest := by
  have filled : ∀ (passed : List Char) (character : Char),
      passed = [character] ∧ accepts character = true → passed ≠ [] := by
    rintro _ character ⟨rfl, -⟩
    exact List.cons_ne_nil _ _
  refine (reads_many (reads_satisfy accepts) filled).congr fun passed found rest => ?_
  rw [strung_characters]
  refine and_congr_right fun _ => ?_
  constructor
  · intro refused
    cases rest with
    | nil => exact clearOf_nil
    | cons character rest =>
        simpa using refused [character] character rest rfl
  · rintro clear _ character back rfl ⟨rfl, accepted⟩
    simp [clearOf_cons.mp clear] at accepted

theorem run_many_satisfy (accepts : Char → Bool) (text : List Char) :
    (many (satisfy accepts)).run (.ofList text) =
      some (text.takeWhile accepts, .ofList (text.dropWhile accepts)) := by
  have all : ∀ character ∈ text.takeWhile accepts, accepts character = true :=
    fun character member => List.all_eq_true.mp List.all_takeWhile character member
  have passes := (reads_many_satisfy accepts).run_append ⟨⟨rfl, all⟩, clearOf_dropWhile text⟩
  rwa [List.takeWhile_append_dropWhile] at passes

/-- One character of a class or more: the longest run, if it is not empty. -/
theorem reads_many1_satisfy (accepts : Char → Bool) :
    (many1 (satisfy accepts)).Reads fun passed found rest =>
      passed ≠ [] ∧ (found = passed ∧ ∀ character ∈ passed, accepts character = true) ∧
        ClearOf accepts rest := by
  intro start found rest
  have readsMany := reads_many_satisfy accepts start found rest
  rw [run_many, Option.some.injEq] at readsMany
  rw [run_many1_eq_some_iff, readsMany]
  constructor
  · rintro ⟨filled, passed, split, ⟨rfl, accepted⟩, clear⟩
    exact ⟨found, split, filled, ⟨rfl, accepted⟩, clear⟩
  · rintro ⟨passed, split, filled, ⟨rfl, accepted⟩, clear⟩
    exact ⟨filled, found, split, ⟨rfl, accepted⟩, clear⟩

theorem run_satisfy_of_clearOf {accepts : Char → Bool} {text : List Char}
    (clear : ClearOf accepts text) : (satisfy accepts).run (.ofList text) = none := by
  cases text with
  | nil => rfl
  | cons character text => simp [clearOf_cons.mp clear]

/-! ## Words -/

/-- A word passes its characters. -/
theorem reads_literal (expected : String) :
    (literal expected).Reads fun passed found _ =>
      passed = expected.toList ∧ found = expected.toList := by
  rw [literal]
  induction expected.toList with
  | nil => exact reads_pure []
  | cons character word ih =>
      rw [List.map_cons, sequence_cons]
      refine ((reads_char character).zipWith List.cons ih).congr fun passed found rest => ?_
      constructor
      · rintro ⟨_, _, _, _, rfl, ⟨rfl, rfl⟩, ⟨rfl, rfl⟩, rfl⟩
        exact ⟨rfl, rfl⟩
      · rintro ⟨rfl, rfl⟩
        exact ⟨[character], word, character, word, rfl, ⟨rfl, rfl⟩, ⟨rfl, rfl⟩, rfl⟩

end Parser

end TextGrammar
