import TextGrammar.Text.Character

/-!
# Options of the JSON grammar

Three things are left open: which characters may stand between tokens, what a backslash means inside
a string, and how deeply arrays and objects may be nested.
-/

namespace TextGrammar.Json

/-- What a backslash means inside a string. -/
inductive EscapeMode where
  /-- It starts an escape.  Control characters below the space and unpaired surrogates are
  refused. -/
  | json
  /-- It stands for itself, as every character but the quote does. -/
  | literal
  deriving DecidableEq

/-- The choices that fix a JSON grammar. -/
structure Options where
  /-- Whether all white space of Unicode may stand between tokens, and not only the space, the
  tabulator and the two ends of line. -/
  unicodeBlanks : Bool := false
  /-- What a backslash means inside a string. -/
  escapes : EscapeMode := .json
  /-- How many brackets may be open at once. -/
  maxDepth : Nat := 64
  deriving DecidableEq

namespace Options

/-- Whether a character may stand between tokens. -/
def isBlank (options : Options) (character : Char) : Bool :=
  character == ' ' || character == '\t' || character == '\n' || character == '\r' ||
    (options.unicodeBlanks && Text.isWhiteSpace character)

end Options

end TextGrammar.Json
