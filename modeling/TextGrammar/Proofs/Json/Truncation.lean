import TextGrammar.Proofs.Json.Exactness

/-!
# A text that was cut off is not read

A value that is no number shows where it ends: no value begins with one that is shorter.  A document
that means no number can therefore not be cut without the cut being noticed, wherever it falls.
What is left does not even begin with a value.
-/

namespace TextGrammar.Json

variable {options : Options} {depth : Nat}

/-- A text comes apart in one way only into blanks and what begins with no blank. -/
theorem Blanks.append_inj {front back otherFront otherBack : List Char}
    (blank : Blanks options front) (clear : ClearOf options.isBlank back)
    (otherBlank : Blanks options otherFront) (otherClear : ClearOf options.isBlank otherBack)
    (same : front ++ back = otherFront ++ otherBack) : front = otherFront ∧ back = otherBack := by
  have fronts := congrArg (List.takeWhile options.isBlank) same
  have backs := congrArg (List.dropWhile options.isBlank) same
  rw [takeWhile_append_clearOf blank clear, takeWhile_append_clearOf otherBlank otherClear]
    at fronts
  rw [dropWhile_append_clearOf blank clear, dropWhile_append_clearOf otherBlank otherClear]
    at backs
  exact ⟨fronts, backs⟩

/-- Only numbers can be prolonged, so any other value may stand in front of every text. -/
theorem Bare.before {text : List Char} {value : Value} (bare : Bare options depth text value)
    (noNumber : value.kind ≠ .number) (rest : List Char) :
    BareBefore options depth text value rest := by
  refine ⟨bare, ?_⟩
  rintro number rfl
  exact absurd rfl noNumber

/-- A value and a longer one that begins with it are of one kind, which their first character
announces. -/
theorem Bare.kind_eq_of_append {front behind : List Char} {value other : Value}
    (bare : Bare options depth front value)
    (whole : Bare options depth (front ++ behind) other) : value.kind = other.kind := by
  obtain ⟨first, rest, rfl, announced⟩ := bare.exists_cons
  obtain ⟨_, _, split, announcedOther⟩ := whole.exists_cons
  obtain ⟨rfl, -⟩ := List.cons.inj split
  rw [announced, Option.some.injEq] at announcedOther
  exact announcedOther

/-- No value begins with one that is shorter, unless it is a number. -/
theorem Bare.eq_nil_of_append {front behind : List Char} {value other : Value}
    (bare : Bare options depth front value)
    (whole : Bare options depth (front ++ behind) other) (noNumber : other.kind ≠ .number) :
    behind = [] := by
  have noNumberFront : value.kind ≠ .number := by
    rw [bare.kind_eq_of_append whole]
    exact noNumber
  -- Both are what the parser of values finds where the longer one begins.
  obtain ⟨parser, -, reads⟩ := exists_bare options depth
  have short := reads.run_append (bare.before noNumberFront behind)
  have long := reads.run_append (whole.before noNumber [])
  rw [List.append_nil, short, Option.some.injEq, Prod.mk.injEq] at long
  exact congrArg Cursor.remaining long.2

/-- An element that ends in no blank ends with its value. -/
theorem Element.exists_append {text : List Char} {value : Value}
    (element : Element options depth text value)
    (ends : ∀ last, text.getLast? = some last → options.isBlank last = false) :
    ∃ blanks core, text = blanks ++ core ∧ Blanks options blanks ∧
      Bare options depth core value := by
  cases element with
  | @intro _ before core after _ blank bare blankAfter =>
      rcases List.eq_nil_or_concat after with rfl | ⟨front, last, rfl⟩
      · exact ⟨before, core, by simp, blank, bare⟩
      · have isBlank := blankAfter last (by simp)
        rw [ends last (by simp)] at isBlank
        exact Bool.noConfusion isBlank

/-- No element that means no number and ends in no blank begins with one that is shorter. -/
theorem Element.eq_nil_of_append {front behind : List Char} {value other : Value}
    (element : Element options depth front value)
    (whole : Element options depth (front ++ behind) other) (noNumber : other.kind ≠ .number)
    (ends : ∀ last, (front ++ behind).getLast? = some last → options.isBlank last = false) :
    behind = [] := by
  cases element with
  | @intro _ before core after _ blank bare blankAfter =>
      obtain ⟨blanks, text, split, blankWhole, bareWhole⟩ := whole.exists_append ends
      have same : before ++ (core ++ (after ++ behind)) = blanks ++ text := by simpa using split
      obtain ⟨-, rfl⟩ := blank.append_inj ((clearOf_append bare.black.1).mpr bare.black.2)
        blankWhole bareWhole.black.2 same
      have nothing := bare.eq_nil_of_append bareWhole noNumber
      exact (List.append_eq_nil_iff.mp nothing).2

namespace Reader

/-- A document that means no number and ends in no blank is cut somewhere.  What was in front of the
cut is then no document, and no value stands at its start. -/
theorem parseValue_of_cut (reader : Reader) {front back : String} {value : Value}
    (read : reader.parseDocument (front ++ back) = .ok value)
    (noNumber : ∀ number, value ≠ .number number)
    (ends : ∀ last, (front ++ back).toList.getLast? = some last →
      reader.options.isBlank last = false)
    (cut : back ≠ "") :
    reader.parseValue front = none ∧ reader.parseDocument front = .error .noValue := by
  have kind : value.kind ≠ .number := by
    cases value with
    | number number => exact absurd rfl (noNumber number)
    | null | bool | string | array | object => exact nofun
  have nothing : reader.parseValue front = none := by
    cases found : reader.parseValue front with
    | none => rfl
    | some result =>
        obtain ⟨other, rest⟩ := result
        obtain ⟨passed, split, before⟩ := reader.parseValue_eq_some_iff.mp found
        have whole := reader.parseValue_eq_some_empty_iff.mp
          (reader.parseDocument_eq_ok_iff_parseValue.mp read)
        rw [String.toList_append, split, List.append_assoc] at whole ends
        have behind := before.element.eq_nil_of_append whole kind ends
        rw [List.append_eq_nil_iff, String.toList_eq_nil_iff, String.toList_eq_nil_iff] at behind
        exact absurd behind.2 cut
  refine ⟨nothing, ?_⟩
  rw [parseDocument_eq, nothing]

/-- A cut between the two halves of a surrogate pair leaves nothing that can be read. -/
theorem parseValue_of_cut_pair :
    Reader.parseDocument {} ("[\"\\ud83d" ++ "\\ude00\"]") = .ok (.array [.string "😀"]) ∧
      Reader.parseValue {} "[\"\\ud83d" = none ∧
      Reader.parseDocument {} "[\"\\ud83d" = .error .noValue := by
  have high : CodeUnit "d83d".toList 0xD83D :=
    .intro (a := 13) (b := 8) (c := 3) (d := 13) rfl rfl rfl rfl
  have low : CodeUnit "de00".toList 0xDE00 :=
    .intro (a := 13) (b := 14) (c := 0) (d := 0) rfl rfl rfl rfl
  have pair : Item .json "\\ud83d\\ude00".toList '😀' :=
    .pair high (by decide) (by decide) low (by decide) (by decide) (by decide)
  have quotation : Quotation .json "\"\\ud83d\\ude00\"".toList "😀" := .intro (.cons pair .nil)
  have string : Bare {} 63 "\"\\ud83d\\ude00\"".toList (.string "😀") := .string quotation
  have array : Bare {} 64 "[\"\\ud83d\\ude00\"]".toList (.array [.string "😀"]) :=
    bare_array_iff.mpr (.filled (List.cons_ne_nil (_, Value.string "😀") [])
      (List.forall_mem_singleton.mpr string.element))
  have read : Reader.parseDocument {} ("[\"\\ud83d" ++ "\\ude00\"]") =
      .ok (.array [.string "😀"]) := by
    rw [parseDocument_eq_ok_iff_parseValue, parseValue_eq_some_empty_iff, String.toList_append]
    exact array.element
  refine ⟨read, parseValue_of_cut {} read nofun ?_ (by decide)⟩
  rintro last ends
  obtain rfl : ']' = last := Option.some.inj ends
  rfl

end Reader

end TextGrammar.Json
