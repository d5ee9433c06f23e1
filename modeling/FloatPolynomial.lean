import FloatPolynomial.Rounding
import FloatPolynomial.Binary.Format
import FloatPolynomial.Binary.Basic
import FloatPolynomial.Binary.Arithmetic
import FloatPolynomial.Binary.Encoding
import FloatPolynomial.Binary.Word
import FloatPolynomial.Term
import FloatPolynomial.Canonical
import FloatPolynomial.Search
import FloatPolynomial.Poly.Basic
import FloatPolynomial.Poly.Arithmetic
import FloatPolynomial.Poly.Evaluation
import FloatPolynomial.Decimal.Numeral
import FloatPolynomial.Decimal.Basic
import FloatPolynomial.Decimal.OfBinary
import FloatPolynomial.Text.Piece
import FloatPolynomial.Text.Slice
import FloatPolynomial.Text.Reader
import FloatPolynomial.Text.Printer
import FloatPolynomial.Json.Number
import FloatPolynomial.Json.Token
import FloatPolynomial.Json.Value
import FloatPolynomial.Json.TermList
import FloatPolynomial.Session
import FloatPolynomial.CheckedSession
import FloatPolynomial.Proofs.CheckedTerms
import FloatPolynomial.Proofs.CheckedSession
import FloatPolynomial.Proofs.Binary.ZeroSums
import FloatPolynomial.Proofs.Coefficients
import FloatPolynomial.Proofs.Results
import FloatPolynomial.Proofs.Products
import FloatPolynomial.Proofs.Schoolbook
import FloatPolynomial.Proofs.Binary.Magnitudes
import FloatPolynomial.Proofs.Decimal.Nearest
import FloatPolynomial.Proofs.Decimal.Notation
import FloatPolynomial.Proofs.Text.Cut
import FloatPolynomial.Proofs.Text.Scanned
import FloatPolynomial.Proofs.Text.Grammar
import FloatPolynomial.Proofs.Decimal.PositionalText
import FloatPolynomial.Proofs.Decimal.Shortest
import FloatPolynomial.Proofs.Text.Printed
import FloatPolynomial.Proofs.Text.RoundTrip
import FloatPolynomial.Proofs.Writes
import FloatPolynomial.Proofs.Overflow
import FloatPolynomial.Proofs.Binary.Integers
import FloatPolynomial.Proofs.IntegerPolynomials
import FloatPolynomial.Proofs.RingLaws
import FloatPolynomial.Proofs.Binary.Differences
import FloatPolynomial.Proofs.Pointwise
import FloatPolynomial.Proofs.Scalars
import FloatPolynomial.Proofs.GroupedSums
import FloatPolynomial.Proofs.Json.Number
import FloatPolynomial.Proofs.Json.Token
import FloatPolynomial.Proofs.Json.Value
import FloatPolynomial.Proofs.Json.RoundTrip
import FloatPolynomial.Proofs.Text.Faults
import FloatPolynomial.Proofs.Text.Concatenation
import FloatPolynomial.Proofs.Powers
import FloatPolynomial.Proofs.IntegerPowers
import FloatPolynomial.Proofs.Equality
import FloatPolynomial.Proofs.Binary.Powers
import FloatPolynomial.Proofs.Evaluation
import FloatPolynomial.Proofs.IntegerValues
import FloatPolynomial.Proofs.Text.Slices
import FloatPolynomial.Proofs.Text.Cursor
import FloatPolynomial.Proofs.Text.Spans
import FloatPolynomial.Proofs.Json.Entries
import FloatPolynomial.Proofs.Binary.CorrectRounding
import FloatPolynomial.Proofs.Text.Precision
import FloatPolynomial.Proofs.Text.PlusSigns
import FloatPolynomial.Proofs.Binary.Reciprocals
import FloatPolynomial.Proofs.Division
import FloatPolynomial.Proofs.Binary.Words
import FloatPolynomial.Proofs.FixedPoints
