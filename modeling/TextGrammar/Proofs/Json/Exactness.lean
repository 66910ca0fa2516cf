import TextGrammar.Json.Document
import TextGrammar.Proofs.Json.Derivation
import TextGrammar.Proofs.Json.Number

/-!
# The grammar is exact

The parser of values passes exactly the elements of the language, each with the value it means.  It
sees one character further than it passes: blanks behind a value are passed as far as they go, and a
number as far as it can be prolonged.  The alternatives exclude each other, because each passes
values of one kind only and the first character announces the kind.
-/

namespace TextGrammar.Json

open TextGrammar.Parser TextGrammar.Decimal

variable {options : Options} {depth : Nat}

/-- A value by itself in front of a text that does not prolong it.  Only numbers can be
prolonged. -/
def BareBefore (options : Options) (depth : Nat) (passed : List Char) (value : Value)
    (rest : List Char) : Prop :=
  Bare options depth passed value ∧
    ∀ number, value = .number number → ∃ decimal, NumeralBefore passed rest decimal

/-- A value amid blanks in front of a text that prolongs neither it nor the blanks. -/
def ElementBefore (options : Options) (depth : Nat) (passed : List Char) (value : Value)
    (rest : List Char) : Prop :=
  ∃ before text after, passed = before ++ (text ++ after) ∧ Blanks options before ∧
    BareBefore options depth text value (after ++ rest) ∧ Blanks options after ∧
    ClearOf options.isBlank rest

/-- A value by itself, of one kind. -/
def OfKind (options : Options) (depth : Nat) (kind : Kind) (passed : List Char) (value : Value)
    (rest : List Char) : Prop :=
  value.kind = kind ∧ BareBefore options depth passed value rest

/-! ## The alternatives one by one -/

theorem reads_null : null.Reads (OfKind options depth .null) := by
  refine ((reads_literal "null").functorMap _).congr fun passed value rest => ?_
  constructor
  · rintro ⟨_, ⟨rfl, -⟩, rfl⟩
    exact ⟨rfl, .null, nofun⟩
  · rintro ⟨kind, bare, -⟩
    cases value <;> cases kind
    exact ⟨_, ⟨bare_null_iff.mp bare, rfl⟩, rfl⟩

theorem reads_bool : bool.Reads (OfKind options depth .bool) := by
  have yes := (reads_literal "true").functorMap fun _ => Value.bool true
  have no := (reads_literal "false").functorMap fun _ => Value.bool false
  have yesStarts := yes.startsWith (· = 't') (by
    rintro _ _ _ ⟨_, ⟨rfl, -⟩, -⟩
    exact ⟨'t', rfl, rfl⟩)
  have noStarts := no.startsWith (· = 'f') (by
    rintro _ _ _ ⟨_, ⟨rfl, -⟩, -⟩
    exact ⟨'f', rfl, rfl⟩)
  refine (yes.or no (yesStarts.excludes noStarts (by rintro _ rfl; decide))).congr
    fun passed value rest => ?_
  constructor
  · rintro (⟨_, ⟨rfl, -⟩, rfl⟩ | ⟨_, ⟨rfl, -⟩, rfl⟩)
    · exact ⟨rfl, .truth, nofun⟩
    · exact ⟨rfl, .falsehood, nofun⟩
  · rintro ⟨kind, bare, -⟩
    cases value <;> cases kind
    rename_i truth
    have spelled := bare_bool_iff.mp bare
    cases truth with
    | true => exact .inl ⟨_, ⟨spelled, rfl⟩, rfl⟩
    | false => exact .inr ⟨_, ⟨spelled, rfl⟩, rfl⟩

theorem reads_numberValue : (Value.number <$> number).Reads (OfKind options depth .number) := by
  refine (reads_number.functorMap _).congr fun passed value rest => ?_
  constructor
  · rintro ⟨_, ⟨decimal, before, rfl, finite⟩, rfl⟩
    exact ⟨rfl, .number before.numeral finite, fun _ _ => ⟨decimal, before⟩⟩
  · rintro ⟨kind, bare, unprolonged⟩
    cases value <;> cases kind
    obtain ⟨decimal, numeral, rfl, finite⟩ := bare_number_iff.mp bare
    obtain ⟨other, before⟩ := unprolonged _ rfl
    obtain rfl := numeral.unique before.numeral
    exact ⟨_, ⟨decimal, before, rfl, finite⟩, rfl⟩

theorem reads_stringValue :
    (Value.string <$> string options.escapes).Reads (OfKind options depth .string) := by
  refine ((reads_string options.escapes).functorMap _).congr fun passed value rest => ?_
  constructor
  · rintro ⟨content, quotation, rfl⟩
    exact ⟨rfl, .string quotation, nofun⟩
  · rintro ⟨kind, bare, -⟩
    cases value <;> cases kind
    exact ⟨_, bare_string_iff.mp bare, rfl⟩

theorem reads_array {element : Parser Value}
    (reads : ReadsParts options element (Element options depth)) :
    (array options element).Reads (OfKind options (depth + 1) .array) := by
  refine ((reads_bracketed reads rfl (by decide)).functorMap _).congr fun passed value rest => ?_
  constructor
  · rintro ⟨items, bracketed, rfl⟩
    exact ⟨rfl, bare_array_iff.mpr bracketed, nofun⟩
  · rintro ⟨kind, bare, -⟩
    cases value <;> cases kind
    exact ⟨_, bare_array_iff.mp bare, rfl⟩

theorem reads_object {element : Parser Value}
    (reads : ReadsParts options (member options element) (Member options depth)) :
    (object options element).Reads (OfKind options (depth + 1) .object) := by
  refine ((reads_bracketed reads rfl (by decide)).functorMap _).congr fun passed value rest => ?_
  constructor
  · rintro ⟨entries, bracketed, rfl⟩
    exact ⟨rfl, bare_object_iff.mpr ⟨entries, bracketed, rfl⟩, nofun⟩
  · rintro ⟨kind, bare, -⟩
    cases value <;> cases kind
    obtain ⟨entries, bracketed, rfl⟩ := bare_object_iff.mp bare
    exact ⟨entries, bracketed, rfl⟩

/-! ## The alternatives together -/

/-- The alternative for values of one kind. -/
def alternative (options : Options) (element : Parser Value) : Kind → Parser Value
  | .null => null
  | .bool => bool
  | .number => Value.number <$> number
  | .string => Value.string <$> string options.escapes
  | .array => array options element
  | .object => object options element

/-- The kinds of value that have no parts. -/
def scalarKinds : List Kind :=
  [.null, .bool, .number, .string]

/-- The kinds of value that are made of elements. -/
def containerKinds : List Kind :=
  [.array, .object]

theorem scalars_eq_map (options : Options) (element : Parser Value) :
    scalars options = scalarKinds.map (alternative options element) := rfl

theorem scalars_append_containers (options : Options) (element : Parser Value) :
    scalars options ++ containers options element =
      (scalarKinds ++ containerKinds).map (alternative options element) := rfl

/-- Parsers of values of different kinds exclude each other. -/
theorem excludes_of_kinds {left right : Parser Value} {leftKind rightKind : Kind}
    (reads : left.Reads (OfKind options depth leftKind))
    (readsOther : right.Reads (OfKind options depth rightKind)) (different : leftKind ≠ rightKind) :
    left.Excludes right := by
  have starts {parser : Parser Value} {kind : Kind}
      (reads : parser.Reads (OfKind options depth kind)) :
      parser.StartsWith fun character => announces character = some kind := by
    refine reads.startsWith _ ?_
    rintro passed value rest ⟨rfl, bare, -⟩
    obtain ⟨first, others, rfl, announced⟩ := bare.exists_cons
    exact ⟨first, rfl, announced⟩
  refine (starts reads).excludes (starts readsOther) fun character announced announcedOther => ?_
  rw [announced, Option.some.injEq] at announcedOther
  exact different announcedOther

section Choice

variable {element : Parser Value} {kinds : List Kind}

theorem pairwise_excludes (distinct : kinds.Nodup)
    (reads : ∀ kind ∈ kinds, (alternative options element kind).Reads (OfKind options depth kind)) :
    (kinds.map (alternative options element)).Pairwise Excludes := by
  rw [List.pairwise_map]
  exact distinct.imp_of_mem fun member memberOther different =>
    excludes_of_kinds (reads _ member) (reads _ memberOther) different

/-- A choice among the kinds that a value can be of passes the values, in whatever order they are
tried. -/
theorem reads_choice (distinct : kinds.Nodup)
    (reads : ∀ kind ∈ kinds, (alternative options element kind).Reads (OfKind options depth kind))
    (complete : ∀ text value, Bare options depth text value → value.kind ∈ kinds) :
    (choice (kinds.map (alternative options element))).Reads (BareBefore options depth) := by
  intro start value rest
  rw [run_choice_iff (pairwise_excludes distinct reads)]
  simp only [List.mem_map, exists_exists_and_eq_and]
  constructor
  · rintro ⟨kind, member, found⟩
    obtain ⟨passed, split, -, before⟩ := (reads kind member _ _ _).mp found
    exact ⟨passed, split, before⟩
  · rintro ⟨passed, split, before⟩
    have member := complete _ _ before.1
    exact ⟨value.kind, member, (reads _ member _ _ _).mpr ⟨passed, split, rfl, before⟩⟩

end Choice

theorem Bare.kind_mem_scalarKinds {text : List Char} {value : Value}
    (bare : Bare options 0 text value) : value.kind ∈ scalarKinds := by
  cases bare <;> simp [scalarKinds, Value.kind]

theorem Value.kind_mem (value : Value) : value.kind ∈ scalarKinds ++ containerKinds := by
  cases value <;> simp [scalarKinds, containerKinds, Value.kind]

theorem reads_scalar (options : Options) (depth : Nat) (element : Parser Value) :
    ∀ kind ∈ scalarKinds, (alternative options element kind).Reads (OfKind options depth kind) := by
  intro kind member
  cases kind with
  | null => exact reads_null
  | bool => exact reads_bool
  | number => exact reads_numberValue
  | string => exact reads_stringValue
  | array => exact absurd member (by decide)
  | object => exact absurd member (by decide)

/-! ## Amid blanks -/

theorem Bare.black {text : List Char} {value : Value} (bare : Bare options depth text value) :
    text ≠ [] ∧ ClearOf options.isBlank text := by
  obtain ⟨first, rest, rfl, announced⟩ := bare.exists_cons
  exact ⟨List.cons_ne_nil _ _, clearOf_cons.mpr
    (not_isBlank_of_not_isWhiteSpace (not_isWhiteSpace_of_announces announced) options)⟩

theorem reads_element {bare : Parser Value} (reads : bare.Reads (BareBefore options depth)) :
    (amidBlanks options bare).Reads (ElementBefore options depth) :=
  reads_amidBlanks reads fun _ _ _ before => before.1.black

theorem ElementBefore.element {passed rest : List Char} {value : Value}
    (before : ElementBefore options depth passed value rest) :
    Element options depth passed value := by
  obtain ⟨_, _, _, rfl, blank, ⟨bare, -⟩, blankAfter, -⟩ := before
  exact .intro blank bare blankAfter

theorem ElementBefore.clear {passed rest : List Char} {value : Value}
    (before : ElementBefore options depth passed value rest) : ClearOf options.isBlank rest := by
  obtain ⟨_, _, _, _, _, _, _, clear⟩ := before
  exact clear

/-- What prolongs a numeral is no blank. -/
theorem not_isBlank_of_prolongs {character : Char} (further : prolongs character = true) :
    options.isBlank character = false := by
  apply not_isBlank_of_not_isWhiteSpace
  simp only [prolongs, Bool.or_eq_true, beq_iff_eq] at further
  rcases further with ((digit | rfl) | rfl) | rfl
  · exact not_isWhiteSpace_of_isDigit digit
  · decide
  · decide
  · decide

/-- An element is found in front of every text that begins with no blank and, if the element is a
number and ends in a digit, with nothing that prolongs a number. -/
theorem Element.before_of_kind {passed rest : List Char} {value : Value}
    (element : Element options depth passed value) (clear : ClearOf options.isBlank rest)
    (ends : value.kind = .number → ∀ last, passed.getLast? = some last → last.isDigit = true →
      ClearOf prolongs rest) :
    ElementBefore options depth passed value rest := by
  cases element with
  | @intro _ before text after _ blank bare blankAfter =>
      refine ⟨before, text, after, rfl, blank, ⟨bare, ?_⟩, blankAfter, clear⟩
      rintro number rfl
      obtain ⟨decimal, numeral, -, -⟩ := bare_number_iff.mp bare
      refine ⟨decimal, numeralBefore_of_clearOf numeral ?_⟩
      by_cases noBlanks : after = []
      · subst noBlanks
        obtain ⟨front, last, rfl, digit⟩ := numeral.exists_concat
        exact ends rfl last (by simp) digit
      · rw [clearOf_append noBlanks]
        intro character head
        have isBlank := blankAfter character (List.mem_of_head? head)
        cases further : prolongs character with
        | false => rfl
        | true =>
            rw [not_isBlank_of_prolongs further] at isBlank
            exact isBlank.symm

/-- Where it does not matter what kind of value the element is. -/
theorem Element.before {passed rest : List Char} {value : Value}
    (element : Element options depth passed value) (clear : ClearOf options.isBlank rest)
    (ends : ∀ last, passed.getLast? = some last → last.isDigit = true → ClearOf prolongs rest) :
    ElementBefore options depth passed value rest :=
  element.before_of_kind clear fun _ => ends

theorem not_prolongs_of_delimits {character : Char} (delimiter : delimits character = true) :
    prolongs character = false := by
  simp only [delimits, Bool.or_eq_true, beq_iff_eq] at delimiter
  rcases delimiter with (rfl | rfl) | rfl <;> decide

theorem Delimited.clearOf_prolongs {text : List Char} (delimited : Delimited text) :
    ClearOf prolongs text := by
  cases text with
  | nil => exact clearOf_nil
  | cons character text =>
      exact clearOf_cons.mpr (not_prolongs_of_delimits (delimited_cons.mp delimited))

theorem Element.before_of_delimited {passed rest : List Char} {value : Value}
    (element : Element options depth passed value) (delimited : Delimited rest) :
    ElementBefore options depth passed value rest :=
  element.before (delimited.clearOf_isBlank options) fun _ _ _ => delimited.clearOf_prolongs

/-- An element that does not begin with a blank begins with its value, which is announced. -/
theorem ElementBefore.of_black {passed rest text : List Char} {value : Value} {first : Char}
    (before : ElementBefore options depth passed value rest)
    (split : first :: text = passed ++ rest) (black : options.isBlank first = false) :
    announces first = some value.kind ∧ ∃ core after, first :: text = core ++ (after ++ rest) ∧
      BareBefore options depth core value (after ++ rest) := by
  obtain ⟨blanks, core, after, rfl, blank, bareBefore, -, -⟩ := before
  rw [List.append_assoc, List.append_assoc] at split
  have clear : ClearOf options.isBlank (blanks ++ (core ++ (after ++ rest))) := by
    rw [← split]
    exact clearOf_cons.mpr black
  obtain rfl := blank.eq_nil clear
  obtain ⟨begin, others, rfl, announced⟩ := bareBefore.1.exists_cons
  obtain ⟨rfl, -⟩ := List.cons.inj split
  exact ⟨announced, _, after, split, bareBefore⟩

/-! ## Elements and members as parts -/

theorem readsParts_element {bare : Parser Value} (reads : bare.Reads (BareBefore options depth)) :
    ReadsParts options (amidBlanks options bare) (Element options depth) where
  skips_blanks := run_amidBlanks_dropWhile bare
  refuses character text delimiter := by
    refine (reads_element reads).skips.run_eq_none ?_
    rintro passed rest split ⟨value, before⟩
    obtain ⟨announced, -⟩ := before.of_black split (not_isBlank_of_delimits delimiter options)
    exact ne_of_accepts delimiter (not_delimits_of_announces announced) rfl
  gives text value element behind delimited :=
    (reads_element reads).run_append (element.before_of_delimited delimited)
  sound start value rest found := by
    obtain ⟨passed, split, before⟩ := (reads_element reads _ _ _).mp found
    exact ⟨passed, split, before.element, before.clear⟩

/-- A key amid blanks, and the element behind it in front of a text that does not prolong it. -/
def MemberBefore (options : Options) (depth : Nat) (passed : List Char) (entry : String × Value)
    (rest : List Char) : Prop :=
  ∃ before name after text, passed = before ++ (name ++ (after ++ ':' :: text)) ∧
    Blanks options before ∧ Quotation options.escapes name entry.1 ∧ Blanks options after ∧
    ElementBefore options depth text entry.2 rest

/-- The key of a member, with the colon behind it. -/
theorem reads_key (options : Options) :
    (amidBlanks options (string options.escapes) <* char ':').Reads fun passed key _ =>
      ∃ before name after, passed = before ++ (name ++ (after ++ [':'])) ∧
        Blanks options before ∧ Quotation options.escapes name key ∧ Blanks options after := by
  have black (passed : List Char) (content : String) (_ : List Char)
      (quotation : Quotation options.escapes passed content) :
      passed ≠ [] ∧ ClearOf options.isBlank passed := by
    obtain ⟨rest, rfl⟩ := quotation.exists_cons
    exact ⟨List.cons_ne_nil _ _,
      clearOf_cons.mpr (not_isBlank_of_not_isWhiteSpace (by decide) options)⟩
  refine ((reads_amidBlanks (reads_string options.escapes) black).seqLeft (skips_char ':')).congr
    fun passed key rest => ?_
  constructor
  · rintro ⟨_, _, rfl, ⟨before, name, after, rfl, blank, quotation, blankAfter, -⟩, rfl⟩
    exact ⟨before, name, after, by simp, blank, quotation, blankAfter⟩
  · rintro ⟨before, name, after, rfl, blank, quotation, blankAfter⟩
    have clear : ClearOf options.isBlank ([':'] ++ rest) :=
      clearOf_cons.mpr (not_isBlank_of_not_isWhiteSpace (by decide) options)
    exact ⟨before ++ (name ++ after), [':'], by simp,
      ⟨before, name, after, rfl, blank, quotation, blankAfter, clear⟩, rfl⟩

theorem reads_member {element : Parser Value}
    (reads : element.Reads (ElementBefore options depth)) :
    (member options element).Reads (MemberBefore options depth) := by
  refine ((reads_key options).zipWith Prod.mk reads).congr fun passed entry rest => ?_
  constructor
  · rintro ⟨_, text, key, value, rfl, ⟨before, name, after, rfl, blank, quotation, blankAfter⟩,
      element, rfl⟩
    exact ⟨before, name, after, text, by simp, blank, quotation, blankAfter, element⟩
  · rintro ⟨before, name, after, text, rfl, blank, quotation, blankAfter, element⟩
    exact ⟨before ++ (name ++ (after ++ [':'])), text, entry.1, entry.2, by simp,
      ⟨before, name, after, rfl, blank, quotation, blankAfter⟩, element, rfl⟩

theorem readsParts_member {bare : Parser Value} (reads : bare.Reads (BareBefore options depth)) :
    ReadsParts options (member options (amidBlanks options bare)) (Member options depth) where
  skips_blanks text := by
    simp only [member, run_zipWith, run_seqLeft, run_amidBlanks_dropWhile]
  refuses character text delimiter := by
    refine (reads_member (reads_element reads)).skips.run_eq_none ?_
    rintro _ rest split ⟨entry, before, name, after, core, rfl, blank, quotation, -, -⟩
    rw [List.append_assoc] at split
    have clear :
        ClearOf options.isBlank (before ++ ((name ++ (after ++ ':' :: core)) ++ rest)) := by
      rw [← split]
      exact clearOf_cons.mpr (not_isBlank_of_delimits delimiter options)
    obtain rfl := blank.eq_nil clear
    obtain ⟨others, rfl⟩ := quotation.exists_cons
    obtain ⟨rfl, -⟩ := List.cons.inj split
    exact absurd delimiter (by decide)
  gives text entry isMember behind delimited := by
    refine (reads_member (reads_element reads)).run_append ?_
    cases isMember with
    | intro blank quotation blankAfter element =>
        exact ⟨_, _, _, _, rfl, blank, quotation, blankAfter,
          element.before_of_delimited delimited⟩
  sound start entry rest found := by
    obtain ⟨passed, split, before, name, after, text, rfl, blank, quotation, blankAfter, element⟩ :=
      (reads_member (reads_element reads) _ _ _).mp found
    exact ⟨_, split, .intro blank quotation blankAfter element.element, element.clear⟩

/-! ## The whole grammar -/

/-- The choice among all kinds of value that may stand where `depth` brackets may be opened. -/
theorem exists_bare (options : Options) (depth : Nat) :
    ∃ bare, value options depth = amidBlanks options bare ∧
      bare.Reads (BareBefore options depth) := by
  induction depth with
  | zero =>
      refine ⟨_, value_zero options, ?_⟩
      rw [scalars_eq_map options fail]
      exact reads_choice (by decide) (reads_scalar options 0 fail)
        fun text value bare => bare.kind_mem_scalarKinds
  | succ depth ih =>
      obtain ⟨bare, valueEq, reads⟩ := ih
      refine ⟨_, value_succ options depth, ?_⟩
      rw [scalars_append_containers, valueEq]
      refine reads_choice (by decide) (fun kind member => ?_) fun text value bare => value.kind_mem
      rcases List.mem_append.mp member with scalar | container
      · exact reads_scalar options _ _ kind scalar
      · cases kind with
        | array => exact reads_array (readsParts_element reads)
        | object => exact reads_object (readsParts_member reads)
        | null => exact absurd container (by decide)
        | bool => exact absurd container (by decide)
        | number => exact absurd container (by decide)
        | string => exact absurd container (by decide)

/-- The parser of values passes the elements, in front of what does not prolong them. -/
theorem reads_value (options : Options) (depth : Nat) :
    (value options depth).Reads (ElementBefore options depth) := by
  obtain ⟨bare, valueEq, reads⟩ := exists_bare options depth
  rw [valueEq]
  exact reads_element reads

theorem readsParts_value (options : Options) (depth : Nat) :
    ReadsParts options (value options depth) (Element options depth) := by
  obtain ⟨bare, valueEq, reads⟩ := exists_bare options depth
  rw [valueEq]
  exact readsParts_element reads

theorem readsParts_memberValue (options : Options) (depth : Nat) :
    ReadsParts options (member options (value options depth)) (Member options depth) := by
  obtain ⟨bare, valueEq, reads⟩ := exists_bare options depth
  rw [valueEq]
  exact readsParts_member reads

/-- Where a kind is announced, the parser of values finds what the alternative for that kind finds,
if no blanks follow. -/
theorem run_value_of_announces {parser : Parser Value} {kind : Kind}
    (reads : parser.Reads (OfKind options depth kind)) {first : Char} {text behind : List Char}
    (announced : announces first = some kind) {result : Option Value}
    (found : parser.run (.ofList (first :: text)) =
      result.map fun value => (value, .ofList behind))
    (clear : ClearOf options.isBlank behind) :
    (value options depth).run (.ofList (first :: text)) =
      result.map fun value => (value, .ofList behind) := by
  cases result with
  | some other =>
      obtain ⟨passed, split, -, before⟩ := (reads _ _ _).mp found
      rw [Cursor.remaining_ofList] at split
      rw [split]
      exact (reads_value options depth).run_append
        ⟨[], passed, [], by simp, blanks_nil, before, blanks_nil, clear⟩
  | none =>
      refine (reads_value options depth).skips.run_eq_none ?_
      rintro passed rest split ⟨other, before⟩
      obtain ⟨same, core, after, splitCore, bareBefore⟩ := before.of_black split
        (not_isBlank_of_not_isWhiteSpace (not_isWhiteSpace_of_announces announced) options)
      rw [announced, Option.some.injEq] at same
      have again := reads.run_append ⟨same.symm, bareBefore⟩
      rw [← splitCore, found] at again
      exact absurd again (by simp)

/-- Where no bracket may be opened no container is found. -/
theorem run_value_zero_of_announces {first : Char} {kind : Kind}
    (announced : announces first = some kind) (container : kind ∉ scalarKinds) (text : List Char) :
    (value options 0).run (.ofList (first :: text)) = none := by
  refine (reads_value options 0).skips.run_eq_none ?_
  rintro passed rest split ⟨other, before⟩
  obtain ⟨same, _, _, -, bare, -⟩ := before.of_black split
    (not_isBlank_of_not_isWhiteSpace (not_isWhiteSpace_of_announces announced) options)
  rw [announced, Option.some.injEq] at same
  rw [same] at container
  exact container bare.kind_mem_scalarKinds

/-- Where no kind is announced, and no blank comes first, nothing is found. -/
theorem run_value_of_not_announced {first : Char} (black : options.isBlank first = false)
    (unannounced : announces first = none) (text : List Char) :
    (value options depth).run (.ofList (first :: text)) = none := by
  refine (reads_value options depth).skips.run_eq_none ?_
  rintro passed rest split ⟨other, before⟩
  obtain ⟨announced, -⟩ := before.of_black split black
  rw [unannounced] at announced
  exact absurd announced (by simp)

namespace Reader

theorem parseValue_eq_some_iff (reader : Reader) {text rest : String} {value : Value} :
    reader.parseValue text = some (value, rest) ↔
      ∃ passed, text.toList = passed ++ rest.toList ∧
        ElementBefore reader.options reader.options.maxDepth passed value rest.toList := by
  rw [parseValue_eq]
  exact (reads_value reader.options reader.options.maxDepth).parse_eq_some_iff

theorem parseDocument_eq_ok_iff_parseValue (reader : Reader) {text : String} {value : Value} :
    reader.parseDocument text = .ok value ↔ reader.parseValue text = some (value, "") := by
  rw [parseDocument_eq]
  cases reader.parseValue text with
  | none => simp
  | some found =>
      obtain ⟨other, rest⟩ := found
      by_cases ended : rest = "" <;> simp [ended]

/-- The whole of a text is taken off exactly if it is an element of the language. -/
theorem parseValue_eq_some_empty_iff (reader : Reader) {text : String} {value : Value} :
    reader.parseValue text = some (value, "") ↔
      Element reader.options reader.options.maxDepth text.toList value := by
  rw [parseValue_eq_some_iff, String.toList_empty]
  constructor
  · rintro ⟨passed, split, before⟩
    rw [split, List.append_nil]
    exact before.element
  · intro element
    exact ⟨text.toList, (List.append_nil _).symm, element.before_of_delimited delimited_nil⟩

/-- The documents are the elements of the language, and mean what their derivations say. -/
theorem parseDocument_eq_ok_iff (reader : Reader) (text : String) (value : Value) :
    reader.parseDocument text = .ok value ↔
      Element reader.options reader.options.maxDepth text.toList value := by
  rw [parseDocument_eq_ok_iff_parseValue, parseValue_eq_some_empty_iff]

end Reader

end TextGrammar.Json
