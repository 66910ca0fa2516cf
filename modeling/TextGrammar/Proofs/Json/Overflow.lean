import TextGrammar.Proofs.Json.Limit
import TextGrammar.Proofs.Json.LongestNumeral
import TextGrammar.Proofs.Parser.Alternation

/-!
# Numbers that are too great

A number whose longest numeral is too great for a double is not found at all, and neither is
anything in which it stands as a value.  Where it is due as an element of an array or as the value
of a member the list of items ends in front of it, or in front of the comma before it, and not at
the closing bracket.  So the container is not found either, nor the one around that, whatever comes
behind.
-/

namespace TextGrammar.Json

open TextGrammar.Parser TextGrammar.Decimal

variable {options : Options} {depth limit : Nat}

/-! ## A container with an item that is not found -/

section Containers

variable {α : Type} {closing : Char} {item : Parser α} {Part : List Char → α → Prop}

theorem Separable.run_append (separable : Separable options item) {blanks : List Char}
    (blank : Blanks options blanks) (text : List Char) :
    item.run (.ofList (blanks ++ text)) = item.run (.ofList text) := by
  rw [← separable.skips_blanks (blanks ++ text), List.dropWhile_append_of_pos blank,
    separable.skips_blanks]

/-- The parts of a container with a comma behind each. -/
def withCommas (parts : List (List Char × α)) : List Char :=
  parts.flatMap fun part => part.1 ++ [',']

/-- A part as an item with a comma in front. -/
def markedPart (part : List Char × α) : Marked α :=
  ⟨[','], part.1, part.2⟩

theorem withCommas_cons (first : List Char × α) (others : List (List Char × α))
    (text : List Char) :
    withCommas (first :: others) ++ text =
      first.1 ++ ((others.map markedPart).flatMap Marked.chars ++ ',' :: text) := by
  induction others generalizing first with
  | nil => simp [withCommas]
  | cons second others ih =>
      have split : withCommas (first :: second :: others) ++ text =
          first.1 ++ (',' :: (withCommas (second :: others) ++ text)) := by
        simp [withCommas]
      rw [split, ih]
      simp [markedPart, Marked.chars]

/-- Behind a part comes the comma of the next one, or what comes behind them all. -/
theorem delimited_flatMap_markedPart (parts : List (List Char × α)) {text : List Char}
    (delimited : Delimited text) :
    Delimited ((parts.map markedPart).flatMap Marked.chars ++ text) := by
  cases parts with
  | nil => exact delimited
  | cons first others => exact delimited_cons.mpr rfl

theorem inPlace_markedPart (reads : ReadsParts options item Part) {parts : List (List Char × α)}
    (all : ∀ part ∈ parts, Part part.1 part.2) {text : List Char} (delimited : Delimited text) :
    InPlace item (char ',') text (parts.map markedPart) := by
  induction parts with
  | nil => exact .nil
  | cons first others ih =>
      obtain ⟨part, parts⟩ := List.forall_mem_cons.mp all
      exact .cons (run_char_cons ',' ',' _)
        (reads.gives _ _ part _ (delimited_flatMap_markedPart others delimited))
        (List.cons_ne_nil _ _) (ih parts)

/-- Where an item is not found, and the closing bracket is not there either, the container is not
found, whatever its items are up to there. -/
theorem run_bracketed_of_refused (opening : Char) (reads : ReadsParts options item Part)
    (noComma : closing ≠ ',') {parts : List (List Char × α)}
    (all : ∀ part ∈ parts, Part part.1 part.2) {text : List Char}
    (refused : item.run (.ofList text) = none)
    (unclosed : (closer options closing).run (.ofList text) = none) :
    (bracketed options opening closing item).run
      (.ofList (opening :: (withCommas parts ++ text))) = none := by
  rw [run_bracketed reads.toSeparable]
  cases parts with
  | nil =>
      have nothing : (sepBy1 item (char ',')).run (.ofList text) = none := by
        rw [run_sepBy1, refused, Option.map_none]
      simp [withCommas, nothing, unclosed]
  | cons first others =>
      obtain ⟨part, parts⟩ := List.forall_mem_cons.mp all
      have delimited : Delimited (',' :: text) := delimited_cons.mpr rfl
      have noFurther : NoFurther item (char ',') (.ofList (',' :: text)) :=
        .inr ⟨',', .ofList text, run_char_cons ',' ',' text, .inl refused⟩
      have found := run_sepBy1_of_inPlace
        (reads.gives _ _ part _ (delimited_flatMap_markedPart others delimited))
        (inPlace_markedPart reads parts delimited) noFurther
      -- The list ends in front of the comma, which is no closing bracket.
      rw [withCommas_cons, found]
      simp [run_closer_of_ne (not_isBlank_of_delimits rfl options) noComma.symm]

end Containers

/-! ## Where an element is due -/

/-- The texts behind which an element is due: the brackets that are opened in them are all open
still, and what stands in those brackets are whole parts up to the last one, which is to come. -/
inductive ElementDue (options : Options) : Nat → List Char → Prop where
  | here {depth : Nat} {blanks : List Char} : Blanks options blanks →
      ElementDue options depth blanks
  | inArray {depth : Nat} {blanks front : List Char} {parts : List (List Char × Value)} :
      Blanks options blanks → (∀ part ∈ parts, Element options depth part.1 part.2) →
      ElementDue options depth front →
      ElementDue options (depth + 1) (blanks ++ '[' :: (withCommas parts ++ front))
  | inObject {depth : Nat} {blanks before name after front : List Char} {key : String}
      {parts : List (List Char × (String × Value))} :
      Blanks options blanks → (∀ part ∈ parts, Member options depth part.1 part.2) →
      Blanks options before → Quotation options.escapes name key → Blanks options after →
      ElementDue options depth front →
      ElementDue options (depth + 1) (blanks ++
        '\x7b' :: (withCommas parts ++ (before ++ (name ++ (after ++ ':' :: front)))))

theorem ElementDue.mono {front : List Char} (due : ElementDue options depth front)
    (within : depth ≤ limit) : ElementDue options limit front := by
  induction due generalizing limit with
  | here blank => exact .here blank
  | inArray blank all _ ih =>
      obtain ⟨inner, rfl⟩ := Nat.exists_eq_add_of_le' (Nat.one_le_of_lt within)
      have inside := Nat.le_of_succ_le_succ within
      exact .inArray blank (fun part member => (all part member).mono inside) (ih inside)
  | inObject blank all blankBefore quotation blankAfter _ ih =>
      obtain ⟨inner, rfl⟩ := Nat.exists_eq_add_of_le' (Nat.one_le_of_lt within)
      have inside := Nat.le_of_succ_le_succ within
      exact .inObject blank (fun part member => (all part member).mono inside) blankBefore quotation
        blankAfter (ih inside)

/-- Behind blanks comes a character that announces a value. -/
def Announced (options : Options) (text : List Char) : Prop :=
  ∃ blanks first rest kind, text = blanks ++ first :: rest ∧ Blanks options blanks ∧
    announces first = some kind

theorem Announced.of_cons {blanks rest : List Char} {first : Char} {kind : Kind}
    (blank : Blanks options blanks) (announced : announces first = some kind) :
    Announced options (blanks ++ first :: rest) :=
  ⟨blanks, first, rest, kind, rfl, blank, announced⟩

/-- No container is closed where a value is announced. -/
theorem Announced.run_closer {text : List Char} (announced : Announced options text)
    (closing : Char) (delimiter : delimits closing = true) :
    (closer options closing).run (.ofList text) = none := by
  obtain ⟨blanks, first, rest, kind, rfl, blank, announcedKind⟩ := announced
  have black : options.isBlank first = false :=
    not_isBlank_of_not_isWhiteSpace (not_isWhiteSpace_of_announces announcedKind) options
  have different : first ≠ closing :=
    (ne_of_accepts delimiter (not_delimits_of_announces announcedKind)).symm
  have skipped := dropWhile_append_clearOf blank
    (clearOf_cons.mpr black : ClearOf _ (first :: rest))
  simp [closer, run_blanks, skipped, different]

theorem ElementDue.announced {front text : List Char} (due : ElementDue options depth front)
    (announced : Announced options text) : Announced options (front ++ text) := by
  cases due with
  | here blank =>
      obtain ⟨blanks, first, rest, kind, rfl, blankBehind, announcedKind⟩ := announced
      rw [← List.append_assoc]
      exact .of_cons (blank.append blankBehind) announcedKind
  | inArray blank _ _ =>
      rw [List.append_assoc, List.cons_append]
      exact .of_cons blank rfl
  | inObject blank _ _ _ _ _ =>
      rw [List.append_assoc, List.cons_append]
      exact .of_cons blank rfl

/-! ## Nothing is found around what is not found -/

theorem run_member_of_refused {element : Parser Value} {before name after text : List Char}
    {key : String} (blank : Blanks options before) (quotation : Quotation options.escapes name key)
    (blankAfter : Blanks options after) (refused : element.run (.ofList text) = none) :
    (member options element).run (.ofList (before ++ (name ++ (after ++ ':' :: text)))) = none := by
  have named : (amidBlanks options (string options.escapes) <* char ':').run
      (.ofList ((before ++ (name ++ (after ++ [':']))) ++ text)) = some (key, .ofList text) :=
    (reads_key options).run_append ⟨before, name, after, rfl, blank, quotation, blankAfter⟩
  have split : (before ++ (name ++ (after ++ [':']))) ++ text =
      before ++ (name ++ (after ++ ':' :: text)) := by simp
  rw [split] at named
  rw [member, run_zipWith, named]
  simp [refused]

/-- Where a kind is announced and its alternative finds nothing, no value is found. -/
theorem run_value_of_announces_of_none {parser : Parser Value} {kind : Kind}
    (reads : parser.Reads (OfKind options depth kind)) {first : Char} {text : List Char}
    (announced : announces first = some kind)
    (nothing : parser.run (.ofList (first :: text)) = none) :
    (value options depth).run (.ofList (first :: text)) = none := by
  have found : parser.run (.ofList (first :: text)) =
      (none : Option Value).map fun value => (value, .ofList []) := nothing
  exact run_value_of_announces reads announced found clearOf_nil

/-- Where an element is due and none is found, nothing is found where the outermost bracket
opens. -/
theorem ElementDue.run_value_eq_none {front text : List Char} (due : ElementDue options depth front)
    (announced : Announced options text)
    (refused : ∀ depth, (value options depth).run (.ofList text) = none) :
    (value options depth).run (.ofList (front ++ text)) = none := by
  induction due with
  | here blank => rw [(readsParts_value options _).run_append blank, refused]
  | @inArray depth blanks front parts blank all due ih =>
      have nothing := run_bracketed_of_refused '[' (readsParts_value options depth) (by decide) all
        ih ((due.announced announced).run_closer ']' rfl)
      rw [List.append_assoc, (readsParts_value options _).run_append blank, List.cons_append,
        List.append_assoc]
      refine run_value_of_announces_of_none (reads_array (readsParts_value options depth)) rfl ?_
      simp [array, nothing]
  | @inObject depth blanks before name after front key parts blank all blankBefore quotation
      blankAfter due ih =>
      have unclosed :
          Announced options (before ++ (name ++ (after ++ ':' :: (front ++ text)))) := by
        obtain ⟨rest, rfl⟩ := quotation.exists_cons
        exact .of_cons blankBefore rfl
      have nothing := run_bracketed_of_refused '\x7b' (readsParts_memberValue options depth)
        (by decide) all (run_member_of_refused blankBefore quotation blankAfter ih)
        (unclosed.run_closer '\x7d' rfl)
      rw [List.append_assoc, (readsParts_value options _).run_append blank, List.cons_append]
      refine run_value_of_announces_of_none (reads_object (readsParts_memberValue options depth))
        rfl ?_
      simpa [object] using nothing

/-- With fewer brackets to open nothing more is found. -/
theorem run_value_eq_none_of_le {text : List Char} (within : depth ≤ limit)
    (refused : (value options limit).run (.ofList text) = none) :
    (value options depth).run (.ofList text) = none := by
  refine (reads_value options depth).skips.run_eq_none ?_
  rintro passed rest rfl ⟨found, before⟩
  have again := (reads_value options limit).run_append (before.mono within)
  rw [refused] at again
  exact absurd again (by simp)

variable {passed rest : List Char} {decimal : Decimal}

/-- Where the longest numeral is too great no value is found. -/
theorem run_value_of_longest (longest : LongestNumeral passed rest)
    (numeral : Numeral passed decimal) (infinite : decimal.toBinary64.isFinite = false) :
    (value options depth).run (.ofList (passed ++ rest)) = none := by
  have nothing := run_number_of_longest longest numeral infinite
  obtain ⟨first, others, rfl, announced⟩ := exists_announced_of_numeral numeral
  rw [List.cons_append] at nothing ⊢
  refine run_value_of_announces_of_none reads_numberValue announced ?_
  rw [run_functor_map, nothing]
  rfl

/-- A number passes the longest numeral and gives the double nearest to it, and each numeral that is
passed is converted.  Where the longest one is too great no number is found, and no value in which
it stands as a value, however many brackets are open around it and may be. -/
theorem number_longest :
    (number.Reads fun passed value rest => LongestNumeral passed rest ∧
      ∃ decimal, Numeral passed decimal ∧ decimal.toBinary64 = value ∧ value.isFinite = true) ∧
    (∀ start text rest, numeral.run start = some (text, rest) →
      (ofList? text.toList).isSome = true) ∧
    ∀ passed rest decimal, LongestNumeral passed rest → Numeral passed decimal →
      decimal.toBinary64.isFinite = false →
      number.run (.ofList (passed ++ rest)) = none ∧
        ∀ (reader : Reader) (limit : Nat) (front : List Char),
          ElementDue reader.options limit front →
          reader.parseValue (String.ofList (front ++ (passed ++ rest))) = none := by
  refine ⟨reads_number_longest, fun _ _ _ => isSome_ofList?_of_run_numeral, ?_⟩
  intro passed rest decimal longest numeral infinite
  refine ⟨run_number_of_longest longest numeral infinite, fun reader limit front due => ?_⟩
  have announced : Announced reader.options (passed ++ rest) := by
    obtain ⟨first, others, rfl, announced⟩ := exists_announced_of_numeral numeral
    exact .of_cons blanks_nil announced
  -- The parts in front of the number may need more brackets than the reader allows.
  have nothing := (due.mono (Nat.le_max_left limit reader.options.maxDepth)).run_value_eq_none
    announced fun depth => run_value_of_longest longest numeral infinite
  have refused := run_value_eq_none_of_le (Nat.le_max_right limit reader.options.maxDepth) nothing
  rw [Reader.parseValue_eq, Reader.value, Parser.parse, Cursor.ofText_eq_ofList,
    String.toList_ofList, refused]
  rfl

/-- A number of a thousand digits as the second element of an array. -/
theorem number_longest_in_array :
    LongestNumeral "1e999".toList "]".toList ∧
      ElementDue {} 1 "[true,".toList ∧
      Reader.parseValue {} "[true,1e999]" = none := by
  have digits (run : List Char) (filled : run ≠ []) (all : run.all Char.isDigit = true) :
      Digits run := ⟨filled, List.all_eq_true.mp all⟩
  have numeral : Numeral "1e999".toList ⟨false, 1, 999⟩ :=
    .intro .absent (digits ['1'] (by decide) rfl) .absent
      (.unsigned (.inl rfl) (digits ['9', '9', '9'] (by decide) rfl))
  have longest : LongestNumeral "1e999".toList "]".toList :=
    longestNumeral_iff.mpr ⟨_, numeralBefore_of_clearOf numeral (clearOf_cons.mpr rfl)⟩
  have truth : ∀ part ∈ [("true".toList, Value.bool true)], Element {} 0 part.1 part.2 := by
    simpa using Bare.truth.element
  have due : ElementDue {} 1 "[true,".toList := .inArray blanks_nil truth (.here blanks_nil)
  have infinite : (⟨false, 1, 999⟩ : Decimal).toBinary64.isFinite = false := by
    simp [toBinary64, Binary64.isFinite]
  have split : String.ofList ("[true,".toList ++ ("1e999".toList ++ "]".toList)) =
      "[true,1e999]" := by
    apply String.toList_injective
    rw [String.toList_ofList]
    rfl
  have nothing := (number_longest.2.2 _ _ _ longest numeral infinite).2 {} 1 _ due
  rw [split] at nothing
  exact ⟨longest, due, nothing⟩

end TextGrammar.Json
