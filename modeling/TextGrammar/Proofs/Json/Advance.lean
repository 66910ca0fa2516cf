import TextGrammar.Proofs.Json.Locality
import TextGrammar.Proofs.Parser.Advance
import TextGrammar.Sample

/-!
# The grammar only moves on

Every production of the grammar is built from the combinators, at each depth from the one below it,
so that what holds of all parsers that are built so holds of it.  An element is never empty, and
therefore a value leaves less text than there was.
-/

namespace TextGrammar.Json

open TextGrammar.Parser

/-! ## The productions -/

variable {α : Type} {options : Options} {element : Parser Value}

theorem built_blanks (options : Options) : Built (blanks options) :=
  .many (.satisfy _)

theorem built_amidBlanks {parser : Parser α} (built : Built parser) :
    Built (amidBlanks options parser) :=
  .seqLeft (.seqRight (built_blanks options) built) (built_blanks options)

theorem built_digits : Built digits :=
  .many1 (.satisfy _)

/-- The fraction and the exponent may be missing, and so may the two signs. -/
theorem built_numeral : Built numeral := by
  have sign : Built (optional (char '-')) := .optional (.char _)
  have fraction : Built (optional (char '.' *> digits)) :=
    .optional (.seqRight (.char _) built_digits)
  have exponentSign : Built (optional (satisfy fun sign => sign == '+' || sign == '-')) :=
    .optional (.satisfy _)
  exact .recognize (.seqLeft (.seqLeft (.seqRight sign built_digits) fraction)
    (.optional (.seqRight (.seqRight (.satisfy _) exponentSign) built_digits)))

theorem built_number : Built number :=
  .filterMap _ built_numeral

theorem built_codeUnit : Built codeUnit :=
  .map _ (.seqRight (.char _) (.count 4 (.filterMap _ (.satisfy _))))

/-- Whether a second escape is read depends on the first one. -/
theorem built_unicodeEscape : Built unicodeEscape := by
  refine .andThen built_codeUnit fun unit => ?_
  split
  · exact .filterMap _ (.seqRight (.char _) built_codeUnit)
  · split
    · exact .pure _
    · exact .fail

theorem built_stringCharacter (mode : EscapeMode) : Built (stringCharacter mode) := by
  cases mode with
  | literal => exact .satisfy (· != '"')
  | json =>
      have escaped : Built ((satisfy fun _ => true).filterMap shortEscape? <|> unicodeEscape) :=
        .or (.filterMap _ (.satisfy _)) built_unicodeEscape
      exact .or (.satisfy _) (.seqRight (.char _) escaped)

theorem built_string (mode : EscapeMode) : Built (string mode) :=
  .map _ (.seqLeft (.seqRight (.char _) (.many (built_stringCharacter mode))) (.char _))

theorem built_bracketed {item : Parser α} (opening closing : Char) (built : Built item) :
    Built (bracketed options opening closing item) := by
  have items : Built (sepBy1 item (char ',') <|> pure []) := .or (.sepBy1 built (.char _)) (.pure _)
  exact .seqLeft (.seqLeft (.seqRight (.seqRight (.char _) (built_blanks options)) items)
    (built_blanks options)) (.char _)

theorem built_member (built : Built element) : Built (member options element) :=
  .zipWith _ (.seqLeft (built_amidBlanks (built_string options.escapes)) (.char _)) built

theorem built_scalars : ∀ parser ∈ scalars options, Built parser := by
  have word {expected : String} (value : Value) : Built ((fun _ => value) <$> literal expected) :=
    .map _ (.literal expected)
  simp only [scalars, List.forall_mem_cons]
  exact ⟨word .null, .or (word (.bool true)) (word (.bool false)), .map _ built_number,
    .map _ (built_string options.escapes), List.forall_mem_nil _⟩

theorem built_containers (built : Built element) :
    ∀ parser ∈ containers options element, Built parser := by
  simp only [containers, List.forall_mem_cons]
  exact ⟨.map Value.array (built_bracketed _ _ built),
    .map (fun entries => Value.object (.ofList entries))
      (built_bracketed _ _ (built_member built)),
    List.forall_mem_nil _⟩

/-- The grammar is built from the combinators, at each depth from the grammar one less deep. -/
theorem built_value (options : Options) (depth : Nat) : Built (value options depth) := by
  induction depth with
  | zero => exact built_amidBlanks (.choice built_scalars)
  | succ depth ih =>
      exact built_amidBlanks
        (.choice (List.forall_mem_append.mpr ⟨built_scalars, built_containers (.delay ih)⟩))

namespace Reader

/-- A value leaves fewer characters than there were. -/
theorem length_remaining_lt (reader : Reader) {start rest : Cursor} {value : Value}
    (found : reader.value.run start = some (value, rest)) :
    rest.remaining.length < start.remaining.length := by
  obtain ⟨passed, split, before⟩ :=
    (reads_value reader.options reader.options.maxDepth start value rest).mp found
  have filled := List.length_pos_iff.mpr before.element.ne_nil
  rw [split, List.length_append]
  omega

/-! ## All parsers -/

/-- A parser that is built from the combinators, grammars that refer to themselves included, ends
further on in the text in which it starts.  What it has passed is the text up to there, cut off
between two characters; what two parsers have passed together is what the one has passed and then
the other.  The grammar of a reader is such a parser, and always passes something. -/
theorem built_moves_on :
    (∀ {α : Type} {parser : Parser α}, Built parser →
      ∀ start value rest, parser.run start = some (value, rest) →
        rest.remaining <:+ start.remaining ∧
          ∃ passed, parser.recognize.run start = some (passed, rest) ∧
            passed ++ rest.text = start.text ∧
            String.Pos.Raw.IsValid start.text ⟨start.size - rest.size⟩ ∧
            passed.utf8ByteSize = start.size - rest.size) ∧
    (∀ {α β γ : Type} {first : Parser α} {second : Parser β} (f : α → β → γ),
      Built first → Built second →
        (zipWith f first second).recognize =
          zipWith (· ++ ·) first.recognize second.recognize) ∧
    (∀ {α : Type} {step : Parser α → Parser α},
      (∀ self, Built self → Built (step self)) → Built (fix step)) ∧
    ∀ reader : Reader, Built reader.value ∧
      ∀ start value rest, reader.value.run start = some (value, rest) →
        rest.remaining.length < start.remaining.length := by
  refine ⟨?_, ?_, Built.fix, fun reader => ⟨built_value _ _, fun _ _ _ => ?_⟩⟩
  · intro α parser built start value rest found
    exact ⟨built.advances start value rest found, built.advances.run_recognize found⟩
  · intro α β γ first second f built builtSecond
    exact built.advances.recognize_zipWith builtSecond.advances f
  · exact reader.length_remaining_lt

/-- A pair of parentheses in front of a letter, by a grammar that refers to itself; the same grammar
behind that of a reader; and an array in front of a letter. -/
theorem built_moves_on_nest :
    (∃ passed, Parentheses.nest.recognize.run (.ofText "()x") = some (passed, .ofText "x") ∧
      passed ++ "x" = "()x") ∧
    (zipWith Prod.mk (Reader.value {}) Parentheses.nest).recognize =
      zipWith (· ++ ·) (Reader.value {}).recognize Parentheses.nest.recognize ∧
    (Cursor.ofText "x").remaining.length < (Cursor.ofText "[]x").remaining.length := by
  obtain ⟨further, joined, recursive, ofReader⟩ := built_moves_on
  have built : Built Parentheses.nest := recursive fun self builtSelf =>
    .or (.map (· + 1) (.seqLeft (.seqRight (.char '(') builtSelf) (.char ')'))) (.pure 0)
  obtain ⟨builtValue, shorter⟩ := ofReader {}
  refine ⟨?_, joined _ builtValue built, ?_⟩
  · have inside : Parentheses.nest.run (.ofList [')', 'x']) = some (0, .ofList [')', 'x']) := by
      rw [Parentheses.nest, run_fix]
      simp
    have found : Parentheses.nest.run (.ofText "()x") = some (1, .ofText "x") := by
      rw [Parentheses.nest, run_fix, ← Parentheses.nest, Cursor.ofText_eq_ofList]
      have positive := Char.utf8Size_pos '('
      simp [inside, positive, Cursor.ofText_eq_ofList]
    obtain ⟨-, passed, recognized, whole, -⟩ := further built _ _ _ found
    rw [Cursor.text_ofText, Cursor.text_ofText] at whole
    exact ⟨passed, recognized, whole⟩
  · have bare : Bare {} 64 "[]".toList (.array []) := .emptyArray blanks_nil
    have before : ElementBefore {} 64 "[]".toList (.array []) ['x'] :=
      bare.element.before (clearOf_cons.mpr rfl) fun _ _ _ => clearOf_cons.mpr rfl
    exact shorter _ _ _ ((reads_value {} 64).run_append before)

end Reader

end TextGrammar.Json
