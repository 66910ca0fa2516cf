import TextGrammar.Binary64.Basic
import TextGrammar.Binary64.Rounding
import TextGrammar.Chain.Basic
import TextGrammar.Chain.Inspect
import TextGrammar.Cursor
import TextGrammar.Decimal.Basic
import TextGrammar.Decimal.Layout
import TextGrammar.Decimal.Shortest
import TextGrammar.Inspect.Description
import TextGrammar.Json.Document
import TextGrammar.Json.Escape
import TextGrammar.Json.Grammar
import TextGrammar.Json.Inspect
import TextGrammar.Json.Members
import TextGrammar.Json.Options
import TextGrammar.Json.Rendering
import TextGrammar.Json.Serializer
import TextGrammar.Json.Value
import TextGrammar.Parser.Basic
import TextGrammar.Parser.Inspect
import TextGrammar.Parser.Recursion
import TextGrammar.Parser.Repetition
import TextGrammar.Proofs.Binary64.Nearest
import TextGrammar.Proofs.Binary64.Scale
import TextGrammar.Proofs.Chain.Laws
import TextGrammar.Proofs.Chain.Walk
import TextGrammar.Proofs.Counting
import TextGrammar.Proofs.Cursor
import TextGrammar.Proofs.Cursor.Steps
import TextGrammar.Proofs.Decimal.Conversion
import TextGrammar.Proofs.Decimal.Numeral
import TextGrammar.Proofs.Decimal.ReadBack
import TextGrammar.Proofs.Decimal.Written
import TextGrammar.Proofs.Json.Account
import TextGrammar.Proofs.Json.Advance
import TextGrammar.Proofs.Json.Blanks
import TextGrammar.Proofs.Json.Bracketed
import TextGrammar.Proofs.Json.Brackets
import TextGrammar.Proofs.Json.Canonical
import TextGrammar.Proofs.Json.Derivation
import TextGrammar.Proofs.Json.Exactness
import TextGrammar.Proofs.Json.History
import TextGrammar.Proofs.Json.Inclusion
import TextGrammar.Proofs.Json.Limit
import TextGrammar.Proofs.Json.Locality
import TextGrammar.Proofs.Json.LongestNumeral
import TextGrammar.Proofs.Json.Members
import TextGrammar.Proofs.Json.Nesting
import TextGrammar.Proofs.Json.Number
import TextGrammar.Proofs.Json.Options
import TextGrammar.Proofs.Json.Order
import TextGrammar.Proofs.Json.Overflow
import TextGrammar.Proofs.Json.Quotation
import TextGrammar.Proofs.Json.RoundTrip
import TextGrammar.Proofs.Json.Serialization
import TextGrammar.Proofs.Json.SingleLine
import TextGrammar.Proofs.Json.Spacing
import TextGrammar.Proofs.Json.Stream
import TextGrammar.Proofs.Json.Truncation
import TextGrammar.Proofs.Json.UnicodeEscape
import TextGrammar.Proofs.Json.Walk
import TextGrammar.Proofs.Json.Written
import TextGrammar.Proofs.Parser.Advance
import TextGrammar.Proofs.Parser.Alternation
import TextGrammar.Proofs.Parser.Chains
import TextGrammar.Proofs.Parser.Progress
import TextGrammar.Proofs.Parser.Reads
import TextGrammar.Proofs.Parser.Recursion
import TextGrammar.Proofs.Parser.Repetition
import TextGrammar.Proofs.Parser.Separation
import TextGrammar.Proofs.Parser.Sequence
import TextGrammar.Proofs.Sample.Parentheses
import TextGrammar.Proofs.Sample.Sum
import TextGrammar.Proofs.Text.Utf16
import TextGrammar.Sample
import TextGrammar.Text.Character
import TextGrammar.Text.Hexadecimal
