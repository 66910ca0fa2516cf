/-!
# Cursors into a text

A cursor is a place in a text: the characters that remain from there on, together with their
length.  Lengths are counted in UTF-8 bytes, and the count is kept with the characters, so that
asking for it costs nothing.  A cursor is a plain value; moving on gives a new cursor and leaves the
old one as it was, which is what lets a failed attempt be forgotten.

The main statements are that a step drops one character and its bytes (`next?_cons`), and that the
text between a cursor and a later one of the same text is what was dropped on the way
(`consumedSince_append`).
-/

namespace TextGrammar

/-- The number of bytes that UTF-8 spends on `characters`. -/
def byteSize : List Char → Nat
  | [] => 0
  | character :: rest => character.utf8Size + byteSize rest

@[simp] theorem byteSize_nil : byteSize [] = 0 := rfl

@[simp] theorem byteSize_cons (character : Char) (rest : List Char) :
    byteSize (character :: rest) = character.utf8Size + byteSize rest := rfl

@[simp] theorem byteSize_append (left right : List Char) :
    byteSize (left ++ right) = byteSize left + byteSize right := by
  induction left with
  | nil => simp
  | cons character left ih => simp [ih, Nat.add_assoc]

theorem byteSize_ofList (characters : List Char) :
    (String.ofList characters).utf8ByteSize = byteSize characters := by
  induction characters with
  | nil => rfl
  | cons character rest ih =>
      have split : String.ofList (character :: rest) =
          String.singleton character ++ String.ofList rest := by
        apply String.toList_injective
        simp
      rw [split, String.utf8ByteSize_append, String.utf8ByteSize_singleton, ih, byteSize_cons]

/-- Counting the bytes of a string and of its characters gives the same number. -/
theorem utf8ByteSize_eq_byteSize (text : String) :
    text.utf8ByteSize = byteSize text.toList := by
  rw [← byteSize_ofList, String.ofList_toList]

/-- No character is free, so only the empty run of characters has no bytes. -/
@[simp] theorem byteSize_eq_zero {characters : List Char} :
    byteSize characters = 0 ↔ characters = [] := by
  cases characters with
  | nil => simp
  | cons character rest =>
      have := character.utf8Size_pos
      simp
      omega

/-- The longest initial run of characters that fits into `budget` bytes, in order behind the
characters of `taken`, which are held in reverse. -/
def fitting (budget : Nat) (taken : List Char) : List Char → List Char
  | [] => taken.reverse
  | character :: rest =>
      if character.utf8Size ≤ budget then
        fitting (budget - character.utf8Size) (character :: taken) rest
      else
        taken.reverse

@[simp] theorem fitting_zero (taken characters : List Char) :
    fitting 0 taken characters = taken.reverse := by
  cases characters with
  | nil => rfl
  | cons character rest =>
      have := character.utf8Size_pos
      rw [fitting, if_neg (by omega)]

/-- A budget of exactly the bytes of a front part selects that part. -/
theorem fitting_byteSize_append (front back taken : List Char) :
    fitting (byteSize front) taken (front ++ back) = taken.reverse ++ front := by
  induction front generalizing taken with
  | nil => simp
  | cons character front ih =>
      rw [List.cons_append, fitting, byteSize_cons, if_pos (Nat.le_add_right _ _),
        Nat.add_sub_cancel_left, ih]
      simp

/-- A place in a text: what remains from there on, and how many bytes that is. -/
structure Cursor where
  /-- The characters that have not been passed. -/
  remaining : List Char
  /-- The length of what remains, in bytes. -/
  size : Nat
  /-- The stored length is the length. -/
  size_eq : size = byteSize remaining

namespace Cursor

/-- Two cursors are equal when the same text remains, whichever text they were set up on. -/
@[ext] protected theorem ext {left right : Cursor} (same : left.remaining = right.remaining) :
    left = right := by
  obtain ⟨leftText, leftSize, leftEq⟩ := left
  obtain ⟨rightText, rightSize, rightEq⟩ := right
  simp only at same
  subst same leftEq rightEq
  rfl

instance : DecidableEq Cursor := fun left right =>
  decidable_of_iff (left.remaining = right.remaining) ⟨Cursor.ext, congrArg remaining⟩

/-- The cursor at which exactly `characters` remain. -/
def ofList (characters : List Char) : Cursor :=
  ⟨characters, byteSize characters, rfl⟩

/-- The cursor at the start of `text`. -/
def ofText (text : String) : Cursor :=
  ⟨text.toList, text.utf8ByteSize, utf8ByteSize_eq_byteSize text⟩

/-- The text that remains. -/
def text (cursor : Cursor) : String :=
  String.ofList cursor.remaining

/-- Whether the end of the text has been reached. -/
def isEmpty (cursor : Cursor) : Bool :=
  cursor.remaining.isEmpty

/-- The character at the cursor, and the cursor behind it. -/
def next? : Cursor → Option (Char × Cursor)
  | ⟨[], _, _⟩ => none
  | ⟨character :: rest, size, size_eq⟩ =>
      some (character, ⟨rest, size - character.utf8Size, by simp [size_eq]⟩)

/-- The text between `start` and the place `cursor` further on: as many bytes from `start` on as
`cursor` has fewer.  It is empty when `cursor` is not further on. -/
def consumedSince (cursor start : Cursor) : String :=
  String.ofList (fitting (start.size - cursor.size) [] start.remaining)

@[simp] theorem remaining_ofList (characters : List Char) :
    (ofList characters).remaining = characters := rfl

@[simp] theorem remaining_ofText (text : String) : (ofText text).remaining = text.toList := rfl

@[simp] theorem ofList_remaining (cursor : Cursor) : ofList cursor.remaining = cursor :=
  Cursor.ext rfl

theorem ofText_eq_ofList (text : String) : ofText text = ofList text.toList :=
  Cursor.ext rfl

@[simp] theorem ofText_text (cursor : Cursor) : ofText cursor.text = cursor :=
  Cursor.ext (by simp [text])

@[simp] theorem text_ofText (text : String) : (ofText text).text = text := by
  simp [Cursor.text]

@[simp] theorem size_ofList (characters : List Char) :
    (ofList characters).size = byteSize characters := rfl

@[simp] theorem size_ofText (text : String) : (ofText text).size = text.utf8ByteSize := rfl

@[simp] theorem isEmpty_iff (cursor : Cursor) :
    cursor.isEmpty = true ↔ cursor.remaining = [] := by
  simp [isEmpty]

@[simp] theorem next?_nil : (ofList []).next? = none := rfl

@[simp] theorem next?_cons (character : Char) (rest : List Char) :
    (ofList (character :: rest)).next? = some (character, ofList rest) := by
  simp only [ofList, next?, Option.some.injEq, Prod.mk.injEq, true_and]
  exact Cursor.ext rfl

/-- A step is taken exactly when a character remains, and passes that character. -/
theorem next?_eq_some_iff {cursor later : Cursor} {character : Char} :
    cursor.next? = some (character, later) ↔
      cursor.remaining = character :: later.remaining := by
  rw [← ofList_remaining cursor]
  cases cursor.remaining with
  | nil => simp
  | cons first rest =>
      simp only [next?_cons, Option.some.injEq, Prod.mk.injEq, remaining_ofList, List.cons.injEq,
        and_congr_right_iff]
      intro _
      constructor
      · rintro rfl
        rfl
      · rintro rfl
        simp

/-- The text between two places of one text is what lies between them. -/
theorem consumedSince_append (front back : List Char) :
    (ofList back).consumedSince (ofList (front ++ back)) = String.ofList front := by
  simp [consumedSince, fitting_byteSize_append]

end Cursor

end TextGrammar
