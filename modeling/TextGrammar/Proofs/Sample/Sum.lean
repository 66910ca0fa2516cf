import TextGrammar.Proofs.Decimal.Numeral
import TextGrammar.Proofs.Parser.Alternation
import TextGrammar.Proofs.Parser.Recursion
import TextGrammar.Sample

/-!
# Sums as a language

The texts that spell a sum, with the sum they spell:

    program = blank* sum
    sum     = term (+ blank* term)*
    term    = digit+ blank* | ( blank* sum ) blank*

The description knows nothing of how sums are read: it bounds neither how deep parentheses are
nested nor how many terms there are, and does not say how far a run of digits or blanks goes.
Reading takes each run as far as it goes, tries a number before a parenthesis, and gives a plus
back that no term follows.  Still it finds the sum of every text that spells one, and of no other.
-/

namespace TextGrammar.Sum

open TextGrammar.Parser TextGrammar.Decimal

/-! ## The language -/

/-- Any number of blanks, also none. -/
def Blanks (text : List Char) : Prop :=
  ∀ character ∈ text, character = ' '

/-- `value` is what the digits spell in decimal, and no greater than 2^63 - 1. -/
def Spells (digits : List Char) (value : Int) : Prop :=
  value = Nat.ofDigitChars 10 digits 0 ∧ value ≤ 9223372036854775807

/-- Digits with any blanks behind them, with the number the digits spell. -/
inductive NumberText : List Char → Int → Prop where
  | intro {digits blanks : List Char} {value : Int} : Digits digits → Spells digits value →
      Blanks blanks → NumberText (digits ++ blanks) value

mutual

/-- A term, with the number it spells. -/
inductive TermText : List Char → Int → Prop where
  | number {text : List Char} {value : Int} : NumberText text value → TermText text value
  | parenthesized {blanks text blanksBehind : List Char} {value : Int} :
      Blanks blanks → SumText text value → Blanks blanksBehind →
      TermText ('(' :: (blanks ++ (text ++ ')' :: blanksBehind))) value

/-- A sum, with the number it spells. -/
inductive SumText : List Char → Int → Prop where
  | single {text : List Char} {value : Int} : TermText text value → SumText text value
  | plus {text blanks others : List Char} {value total : Int} :
      TermText text value → Blanks blanks → SumText others total →
      SumText (text ++ '+' :: (blanks ++ others)) (value + total)

end

/-- A sum with any blanks in front of it. -/
inductive ProgramText : List Char → Int → Prop where
  | intro {blanks text : List Char} {value : Int} : Blanks blanks → SumText text value →
      ProgramText (blanks ++ text) value

/-! ## Where texts begin -/

variable {text rest : List Char} {value total : Int}

/-- A term begins with a digit or a parenthesis, and so not with a blank. -/
theorem TermText.clearOf_blank (isTerm : TermText text value) (behind : List Char) :
    ClearOf (· == ' ') (text ++ behind) := by
  cases isTerm with
  | number isNumber =>
      cases isNumber with
      | intro digits _ _ =>
          rw [List.append_assoc]
          apply digits.clearOf_append
          intro character digit
          exact beq_eq_false_iff_ne.mpr (ne_of_isDigit digit ' ' rfl)
  | parenthesized _ _ _ => exact clearOf_cons.mpr rfl

theorem SumText.clearOf_blank (isSum : SumText text value) (behind : List Char) :
    ClearOf (· == ' ') (text ++ behind) := by
  cases isSum with
  | single isTerm => exact isTerm.clearOf_blank behind
  | plus isTerm _ _ =>
      rw [List.append_assoc]
      exact isTerm.clearOf_blank _

/-! ## Tokens -/

theorem skips_blanks :
    blanks.Skips fun passed rest => Blanks passed ∧ ClearOf (· == ' ') rest := by
  apply (reads_many_satisfy (· == ' ')).skips.congr
  intro passed rest
  simp only [beq_iff_eq]
  constructor
  · rintro ⟨_, ⟨-, blank⟩, clear⟩
    exact ⟨blank, clear⟩
  · rintro ⟨blank, clear⟩
    exact ⟨passed, ⟨rfl, blank⟩, clear⟩

theorem skips_mark (mark : Char) :
    (token (char mark)).Skips fun passed rest =>
      ∃ blanks, passed = mark :: blanks ∧ Blanks blanks ∧ ClearOf (· == ' ') rest := by
  apply ((skips_char mark).seqLeft skips_blanks).congr
  intro passed rest
  constructor
  · rintro ⟨_, blanks, rfl, rfl, blank, clear⟩
    exact ⟨blanks, rfl, blank, clear⟩
  · rintro ⟨blanks, rfl, blank, clear⟩
    exact ⟨[mark], blanks, rfl, rfl, blank, clear⟩

theorem run_mark_of_clearOf {mark : Char} (clear : ClearOf (· == mark) rest) :
    (token (char mark)).run (.ofList rest) = none := by
  simp [token, char, run_satisfy_of_clearOf clear]

theorem number?_eq_some_iff {digits : List Char} :
    number? (String.ofList digits) = some value ↔ Spells digits value := by
  simp only [number?, greatest, String.toList_ofList, Option.ite_none_right_eq_some,
    Option.some.injEq, Spells]
  omega

/-- A number passes the longest run of digits and then the longest run of blanks. -/
theorem reads_number :
    number.Reads fun passed value rest => ∃ digits blanks, passed = digits ++ blanks ∧
      (Digits digits ∧ ClearOf Char.isDigit (blanks ++ rest)) ∧
      (Blanks blanks ∧ ClearOf (· == ' ') rest) ∧ Spells digits value := by
  apply ((skips_digits.recognize.seqLeft skips_blanks).filterMap number?).congr
  intro passed value rest
  constructor
  · rintro ⟨_, ⟨digits, blanks, rfl, ⟨rfl, run⟩, blank⟩, spelled⟩
    exact ⟨digits, blanks, rfl, run, blank, number?_eq_some_iff.mp spelled⟩
  · rintro ⟨digits, blanks, rfl, run, blank, spelled⟩
    exact ⟨String.ofList digits, ⟨digits, blanks, rfl, ⟨rfl, run⟩, blank⟩,
      number?_eq_some_iff.mpr spelled⟩

/-! ## The grammar of sums as it stands -/

theorem built_token {α : Type} {parser : Parser α} (built : Built parser) : Built (token parser) :=
  .seqLeft built (.many (.char ' '))

theorem built_term {self : Parser Int} (built : Built self) : Built (term self) :=
  .or (.filterMap _ (built_token (.recognize (.many1 (.satisfy _)))))
    (.seqLeft (.seqRight (built_token (.char '(')) built) (built_token (.char ')')))

theorem built_sum : Built sum :=
  .fix fun _ built => .map _ (.sepBy1 (built_term built) (built_token (.char '+')))

theorem shrinks_mark (mark : Char) : (token (char mark)).Shrinks := by
  apply (skips_mark mark).shrinks
  rintro _ _ ⟨blanks, rfl, -⟩
  exact List.cons_ne_nil _ _

/-- A sum consists of terms that contain sums: the grammar comes back to itself behind an opening
parenthesis only. -/
theorem sum_eq : sum = List.foldr (· + ·) 0 <$> sepBy1 (term sum) (token (char '+')) := by
  apply fix_eq
  intro size
  apply AgreeWithin.map
  apply AgreeWithin.sepBy1
  · apply (AgreeWithin.refl size number).or
    apply AgreeWithin.seqLeft
    exact AgreeWithin.seqRight_below (shrinks_mark '(') size sum
  · exact (built_term built_sum).advances
  · exact (built_token (.char '+')).advances

/-- Adding up items finds the first one and those that stand behind a plus, as many as there are. -/
theorem run_total_eq_some_iff {item : Parser Int} {start rest : Cursor} :
    (List.foldr (· + ·) 0 <$> sepBy1 item (token (char '+'))).run start = some (total, rest) ↔
      ∃ first others middle, item.run start = some (first, middle) ∧
        Alternating item (token (char '+')) middle others rest ∧
        NoFurther item (token (char '+')) rest ∧ total = first + others.foldr (· + ·) 0 := by
  rw [run_functor_map, Option.map_eq_some_iff]
  simp only [Prod.exists, Prod.mk.injEq, run_sepBy1_eq_some_iff, successive_behindSeparator_iff,
    stuck_behindSeparator_iff]
  constructor
  · rintro ⟨_, _, ⟨first, others, middle, rfl, found, alternating, noFurther⟩, rfl, rfl⟩
    exact ⟨first, others, middle, found, alternating, noFurther, rfl⟩
  · rintro ⟨first, others, middle, found, alternating, noFurther, rfl⟩
    exact ⟨_, rest, ⟨first, others, middle, rfl, found, alternating, noFurther⟩, rfl, rfl⟩

/-! ## What is found spells a sum -/

/-- The text between two places spells the value. -/
def Between (Spelled : List Char → Int → Prop) (start : Cursor) (value : Int) (rest : Cursor) :
    Prop :=
  ∃ passed, start.remaining = passed ++ rest.remaining ∧ Spelled passed value

theorem number_finds : number.Finds (Between NumberText) := by
  intro start value rest found
  obtain ⟨_, split, digits, blanks, rfl, ⟨run, -⟩, ⟨blank, -⟩, spelled⟩ :=
    (reads_number start value rest).mp found
  exact ⟨digits ++ blanks, split, .intro run spelled blank⟩

/-- A term finds terms, if what it finds in parentheses are sums. -/
theorem term_finds {self : Parser Int} (finds : self.Finds (Between SumText)) :
    (term self).Finds (Between TermText) := by
  intro start value rest found
  rw [term, run_orElse, Option.or_eq_some_iff] at found
  cases found with
  | inl found =>
      obtain ⟨text, split, isNumber⟩ := number_finds _ _ _ found
      exact ⟨text, split, .number isNumber⟩
  | inr found =>
      obtain ⟨inFrontOfClosing, opened, closed⟩ := run_seqLeft_eq_some_iff.mp found.2
      obtain ⟨behindOpening, opening, foundSum⟩ := run_seqRight_eq_some_iff.mp opened
      obtain ⟨_, split, blanks, rfl, blank, -⟩ := (skips_mark '(' _ _).mp opening
      obtain ⟨text, splitSum, isSum⟩ := finds _ _ _ foundSum
      obtain ⟨_, splitClosing, blanksBehind, rfl, blankBehind, -⟩ := (skips_mark ')' _ _).mp closed
      refine ⟨_, ?_, .parenthesized blank isSum blankBehind⟩
      rw [split, splitSum, splitClosing]
      simp

/-- What stands behind a term, each time with a plus in front, carries the term on to a sum. -/
theorem exists_others {item : Parser Int} (finds : item.Finds (Between TermText))
    {start rest : Cursor} {values : List Int}
    (alternating : Alternating item (token (char '+')) start values rest) :
    ∃ passed, start.remaining = passed ++ rest.remaining ∧ ∀ text value, TermText text value →
      SumText (text ++ passed) (value + values.foldr (· + ·) 0) := by
  induction alternating with
  | done cursor =>
      refine ⟨[], rfl, ?_⟩
      intro text value isTerm
      rw [List.append_nil, List.foldr_nil, Int.add_zero]
      exact .single isTerm
  | step marked found _ _ ih =>
      obtain ⟨_, split, blanks, rfl, blank, -⟩ := (skips_mark '+' _ _).mp ⟨_, marked⟩
      obtain ⟨next, splitNext, isNext⟩ := finds _ _ _ found
      obtain ⟨others, splitOthers, carriesOn⟩ := ih
      refine ⟨'+' :: (blanks ++ (next ++ others)), ?_, ?_⟩
      · rw [split, splitNext, splitOthers]
        simp
      · intro text value isTerm
        exact .plus isTerm blank (carriesOn next _ isNext)

theorem sum_finds : sum.Finds (Between SumText) := by
  apply fix_finds
  intro self finds start total rest found
  obtain ⟨first, others, middle, foundFirst, alternating, -, rfl⟩ :=
    run_total_eq_some_iff.mp found
  obtain ⟨text, split, isTerm⟩ := term_finds finds _ _ _ foundFirst
  obtain ⟨passed, splitOthers, carriesOn⟩ := exists_others (term_finds finds) alternating
  refine ⟨text ++ passed, ?_, carriesOn text first isTerm⟩
  rw [split, splitOthers, List.append_assoc]

/-! ## What spells a sum is found -/

/-- A blank or a digit would prolong a term that it stands behind. -/
def prolongs (character : Char) : Bool :=
  character == ' ' || character.isDigit

theorem clearOf_blank_of_prolongs (clear : ClearOf prolongs rest) : ClearOf (· == ' ') rest := by
  apply clear.mono
  intro character blank
  simp [prolongs, beq_iff_eq.mp blank]

theorem clearOf_isDigit_of_prolongs (clear : ClearOf prolongs rest) :
    ClearOf Char.isDigit rest := by
  apply clear.mono
  intro character digit
  simp [prolongs, digit]

theorem Blanks.clearOf_isDigit {blanks : List Char} (blank : Blanks blanks) :
    ClearOf Char.isDigit blanks := by
  intro character head
  rw [blank character (List.mem_of_mem_head? head)]
  rfl

theorem run_mark (mark : Char) {blanks : List Char} (blank : Blanks blanks)
    (clear : ClearOf (· == ' ') rest) :
    ∃ found, (token (char mark)).run (.ofList (mark :: (blanks ++ rest))) =
      some (found, .ofList rest) :=
  (skips_mark mark _ _).mpr ⟨mark :: blanks, rfl, blanks, rfl, blank, clear⟩

theorem NumberText.run_term {self : Parser Int} (isNumber : NumberText text value)
    (clear : ClearOf prolongs rest) :
    (term self).run (.ofList (text ++ rest)) = some (value, .ofList rest) := by
  cases isNumber with
  | @intro digits blanks _ run spelled blank =>
      have noDigit : ClearOf Char.isDigit (blanks ++ rest) :=
        blank.clearOf_isDigit.append (clearOf_isDigit_of_prolongs clear)
      have found := reads_number.run_append
        ⟨digits, blanks, rfl, ⟨run, noDigit⟩, ⟨blank, clearOf_blank_of_prolongs clear⟩, spelled⟩
      rw [term, run_orElse, found]
      rfl

/-- No number begins with a parenthesis, so that a term in parentheses is not missed. -/
theorem run_number_parenthesis (behind : List Char) :
    number.run (.ofList ('(' :: behind)) = none := by
  apply reads_number.skips.run_eq_none
  rintro passed rest split ⟨value, digits, blanks, rfl, ⟨run, -⟩, -⟩
  obtain ⟨first, others, rfl, digit⟩ := run.exists_cons
  rw [List.cons_append, List.cons_append, List.cons.injEq] at split
  rw [← split.1] at digit
  cases digit

/-- A term in parentheses is found if what stands in them is. -/
theorem run_term_parenthesized {self : Parser Int} {blanks blanksBehind : List Char}
    (blank : Blanks blanks) (filled : ClearOf (· == ' ') (text ++ ')' :: (blanksBehind ++ rest)))
    (found : self.run (.ofList (text ++ ')' :: (blanksBehind ++ rest))) =
      some (value, .ofList (')' :: (blanksBehind ++ rest))))
    (blankBehind : Blanks blanksBehind) (clear : ClearOf (· == ' ') rest) :
    (term self).run (.ofList ('(' :: (blanks ++ (text ++ ')' :: (blanksBehind ++ rest))))) =
      some (value, .ofList rest) := by
  rw [term, run_orElse, run_number_parenthesis, Option.none_or, run_seqLeft_eq_some_iff]
  refine ⟨.ofList (')' :: (blanksBehind ++ rest)), ?_, run_mark ')' blankBehind clear⟩
  rw [run_seqRight_eq_some_iff]
  exact ⟨.ofList (text ++ ')' :: (blanksBehind ++ rest)), run_mark '(' blank filled, found⟩

/-- In front of `rest` the grammar passes `text` term by term, for terms that add up to `total`. -/
def Itemized (text rest : List Char) (total : Int) : Prop :=
  ∃ first others middle, (term sum).run (.ofList (text ++ rest)) = some (first, middle) ∧
    Alternating (term sum) (token (char '+')) middle others (.ofList rest) ∧
    total = first + others.foldr (· + ·) 0

theorem itemized_single
    (found : (term sum).run (.ofList (text ++ rest)) = some (value, .ofList rest)) :
    Itemized text rest value :=
  ⟨value, [], .ofList rest, found, .done _, by rw [List.foldr_nil, Int.add_zero]⟩

theorem itemized_plus {blanks others : List Char}
    (found : (term sum).run (.ofList (text ++ '+' :: (blanks ++ (others ++ rest)))) =
      some (value, .ofList ('+' :: (blanks ++ (others ++ rest)))))
    (blank : Blanks blanks) (filled : ClearOf (· == ' ') (others ++ rest))
    (itemized : Itemized others rest total) :
    Itemized (text ++ '+' :: (blanks ++ others)) rest (value + total) := by
  obtain ⟨next, values, middle, foundNext, alternating, rfl⟩ := itemized
  obtain ⟨_, marked⟩ := run_mark '+' blank filled
  have shorter : middle.size < (Cursor.ofList ('+' :: (blanks ++ (others ++ rest)))).size := by
    apply Nat.lt_of_le_of_lt
    · exact Cursor.size_le_of_suffix ((built_term built_sum).advances _ _ _ foundNext)
    · exact shrinks_mark '+' _ _ _ marked
  refine ⟨value, next :: values, _, ?_, .step marked foundNext shorter alternating, rfl⟩
  rw [List.append_assoc, List.cons_append, List.append_assoc]
  exact found

/-- Where no plus follows, there is no further term. -/
theorem Itemized.run_sum (itemized : Itemized text rest total) (clear : ClearOf (· == '+') rest) :
    sum.run (.ofList (text ++ rest)) = some (total, .ofList rest) := by
  obtain ⟨first, others, middle, found, alternating, rfl⟩ := itemized
  rw [sum_eq, run_total_eq_some_iff]
  exact ⟨first, others, middle, found, alternating, .inl (run_mark_of_clearOf clear), rfl⟩

mutual

/-- A term is found in front of anything that does not prolong it. -/
theorem TermText.run_term : ∀ {text : List Char} {value : Int}, TermText text value →
    ∀ rest, ClearOf prolongs rest →
      (term sum).run (.ofList (text ++ rest)) = some (value, .ofList rest)
  | _, _, .number isNumber, _, clear => isNumber.run_term clear
  | _, _, @TermText.parenthesized _ _ blanksBehind _ blank isSum blankBehind, rest, clear => by
      have itemized := SumText.itemized isSum (')' :: (blanksBehind ++ rest)) (clearOf_cons.mpr rfl)
      have found := itemized.run_sum (clearOf_cons.mpr rfl)
      rw [List.cons_append, List.append_assoc, List.append_assoc, List.cons_append]
      exact run_term_parenthesized blank (isSum.clearOf_blank _) found blankBehind
        (clearOf_blank_of_prolongs clear)

/-- A sum is passed term by term in front of anything that does not prolong its last term. -/
theorem SumText.itemized : ∀ {text : List Char} {total : Int}, SumText text total →
    ∀ rest, ClearOf prolongs rest → Itemized text rest total
  | _, _, .single isTerm, rest, clear => itemized_single (TermText.run_term isTerm rest clear)
  | _, _, .plus isTerm blank isOthers, rest, clear =>
      itemized_plus (TermText.run_term isTerm ('+' :: _) (clearOf_cons.mpr rfl)) blank
        (isOthers.clearOf_blank rest) (SumText.itemized isOthers rest clear)

end

/-- A sum is found in front of anything that carries it no further. -/
theorem SumText.run_sum (isSum : SumText text total) (clear : ClearOf prolongs rest)
    (noPlus : ClearOf (· == '+') rest) :
    sum.run (.ofList (text ++ rest)) = some (total, .ofList rest) :=
  (isSum.itemized rest clear).run_sum noPlus

/-! ## Whole texts -/

/-- A program passes all of the text. -/
theorem reads_program :
    program.Reads fun passed value rest => ProgramText passed value ∧ rest = [] := by
  intro start value rest
  rw [program, run_seqLeft_eq_some_iff]
  constructor
  · rintro ⟨ending, found, atEnd⟩
    obtain ⟨behind, skipped, foundSum⟩ := run_seqRight_eq_some_iff.mp found
    obtain ⟨blanks, split, blank, -⟩ := (skips_blanks _ _).mp skipped
    obtain ⟨text, splitSum, isSum⟩ := sum_finds _ _ _ foundSum
    obtain ⟨_, splitEnd, rfl, nothing⟩ := (skips_endOfInput _ _).mp atEnd
    refine ⟨blanks ++ text, ?_, .intro blank isSum, nothing⟩
    rw [split, splitSum, splitEnd, List.nil_append, List.append_assoc]
  · rintro ⟨passed, split, isProgram, nothing⟩
    cases isProgram with
    | @intro blanks text _ blank isSum =>
        have atEnd {accepts : Char → Bool} : ClearOf accepts rest.remaining := by
          rw [nothing]
          exact clearOf_nil
        have found := isSum.run_sum atEnd atEnd
        rw [Cursor.ofList_remaining] at found
        rw [List.append_assoc] at split
        refine ⟨rest, ?_, (skips_endOfInput rest rest).mpr ⟨[], rfl, rfl, nothing⟩⟩
        rw [run_seqRight_eq_some_iff]
        exact ⟨.ofList (text ++ rest.remaining),
          (skips_blanks _ _).mpr ⟨blanks, split, blank, isSum.clearOf_blank _⟩, found⟩

/-- A sum is made of terms that contain sums, and a program finds a number exactly if its whole
text spells a sum, and then that sum. -/
theorem program_exact :
    sum = List.foldr (· + ·) 0 <$> sepBy1 (term (delay fun _ => sum)) (token (char '+')) ∧
      ∀ (text rest : String) (value : Int),
        program.parse text = some (value, rest) ↔ rest = "" ∧ ProgramText text.toList value := by
  refine ⟨sum_eq, fun text rest value => ?_⟩
  rw [reads_program.parse_eq_some_iff]
  constructor
  · rintro ⟨passed, split, isProgram, nothing⟩
    rw [nothing, List.append_nil] at split
    rw [split]
    exact ⟨String.toList_eq_nil_iff.mp nothing, isProgram⟩
  · rintro ⟨rfl, isProgram⟩
    exact ⟨text.toList, (List.append_nil _).symm, isProgram, rfl⟩

end TextGrammar.Sum
