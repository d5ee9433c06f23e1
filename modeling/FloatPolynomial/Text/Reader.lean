import FloatPolynomial.Poly.Basic
import FloatPolynomial.Text.Slice

/-!
# Reading Polynomials

A polynomial is written as a sequence of terms such as `3x^2`, `-x` or `+7`, with white space
anywhere, which are the characters with the Unicode property `White_Space`.  Its terms are read in
the order of the text; the first fault ends the reading.

`readTerms` cuts the text into pieces and reads each of them by its parts.  `scanTerms` is the same
reading byte by byte: a cursor stands at a byte of a text and may move up to another one, without
knowing that these are bytes between characters.  A `Scan` takes slices of the text.  It keeps a list
of them, whether they exist or not, and ends at the first one that does not.
-/

namespace FloatPolynomial

/-- The ranges of the property, first and last code point each. -/
def blankRanges : List (Nat × Nat) :=
  [(0x09, 0x0D), (0x20, 0x20), (0x85, 0x85), (0xA0, 0xA0), (0x1680, 0x1680), (0x2000, 0x200A),
    (0x2028, 0x2029), (0x202F, 0x202F), (0x205F, 0x205F), (0x3000, 0x3000)]

/-- Whether a character is white space. -/
def isBlank (c : Char) : Bool :=
  blankRanges.any fun (first, last) ↦ decide (first ≤ c.toNat ∧ c.toNat ≤ last)

/-- The characters of a text that are not white space. -/
def strip (text : List Char) : List Char :=
  text.filter fun c ↦ !isBlank c

theorem strip_append (front back : List Char) : strip (front ++ back) = strip front ++ strip back :=
  List.filter_append ..

/-- The terms of a text in the order in which they are written, zeros and repeated powers
included. -/
def readTerms (f : Format) (text : List Char) : Except ParseError (List (Term f)) :=
  let stripped := strip text
  if stripped.isEmpty then .error .empty
  else (placed 0 (pieces stripped)).mapM fun (start, piece) ↦ (Piece.ofText piece).read f start

/-- The polynomial that a text denotes. -/
def Poly.parse (f : Format) (text : List Char) : Except ParseError (Poly f) :=
  return ofTerms (← readTerms f text)

/-! ## Reading with a cursor -/

/-- What ends a scan early: a fault of the text, or a slice that does not exist. -/
inductive ScanFault where
  | refused (reason : ParseError)
  | noSlice (span : Span)
  deriving DecidableEq

/-- A computation that keeps the slices that it takes. -/
abbrev Scan := ExceptT ScanFault (StateM (List Span))

/-- What lies between two bytes of a text, if anything does. -/
def sliceOrFault (text : List Char) (span : Span) :
    Except ScanFault {part : List Char // IsSlice text span.start span.stop part} :=
  match h : slice? text span with
  | some part => .ok ⟨part, slice?_eq_some_iff.mp h⟩
  | none => .error (.noSlice span)

/-- Takes a slice of a text, which is kept even if it does not exist. -/
def slice (text : List Char) (span : Span) :
    Scan {part : List Char // IsSlice text span.start span.stop part} :=
  ExceptT.mk (modifyGet fun taken ↦ (sliceOrFault text span, taken ++ [span]))

variable {text : List Char} {f : Format}

/-- A byte of a text, and the one up to which a cursor may move. -/
structure Cursor (text : List Char) where
  position : Nat
  stop : Nat

namespace Cursor

abbrev ahead (cursor : Cursor text) : Span :=
  ⟨cursor.position, cursor.stop⟩

def advance (c : Char) (cursor : Cursor text) : Cursor text :=
  { cursor with position := cursor.position + c.utf8Size }

/-- The character at the cursor.  It ends before the stop, so that moving after it leaves less. -/
def peek (cursor : Cursor text) :
    Scan (Option {c : Char // cursor.position + c.utf8Size ≤ cursor.stop}) := do
  match ← slice text cursor.ahead with
  | ⟨[], _⟩ => return none
  | ⟨c :: _, h⟩ => return some ⟨c, h.utf8Size_le⟩

/-- The cursor after a given character, if it stands there. -/
def eat (expected : Char) (cursor : Cursor text) : Scan (Option (Cursor text)) := do
  match ← cursor.peek with
  | none => return none
  | some c => return if c.val = expected then some (cursor.advance expected) else none

/-- The cursor after all accepted characters. -/
def takeWhile (accept : Char → Bool) (cursor : Cursor text) : Scan (Cursor text) := do
  match ← cursor.peek with
  | none => return cursor
  | some c => if accept c.val then takeWhile accept (cursor.advance c.val) else return cursor
termination_by cursor.stop - cursor.position
decreasing_by
  have hlt := Nat.lt_add_of_pos_right (n := cursor.position) c.val.utf8Size_pos
  exact Nat.sub_lt_sub_left (Nat.lt_of_lt_of_le hlt c.property) hlt

/-- The factor that a sign stands for, and the cursor after it. -/
def scanSign (f : Format) (cursor : Cursor text) : Scan (Binary f × Cursor text) := do
  match ← cursor.eat '-' with
  | some next => return (-1, next)
  | none =>
    match ← cursor.eat '+' with
    | some next => return (1, next)
    | none => return (1, cursor)

/-- The product with the number at the cursor, if there is one. -/
def scanNumber (factor : Binary f) (cursor : Cursor text) : Scan (Binary f × Cursor text) := do
  let next ← cursor.takeWhile Piece.isNumeric
  if cursor.position < next.position then
    let token ← slice text ⟨cursor.position, next.position⟩
    match Decimal.ofText? token.val with
    | some d => return (factor * d.toBinary f false, next)
    | none =>
      throw (.refused
        (.malformedNumber cursor.position next.position (String.ofList token.val)))
  else return (factor, next)

/-- The number after a caret. -/
def scanExponent (cursor : Cursor text) : Scan (UInt32 × Cursor text) := do
  let next ← cursor.takeWhile (·.isDigit)
  if next.position = cursor.position then
    throw (.refused (.missingExponent cursor.position))
  else
    let token ← slice text ⟨cursor.position, next.position⟩
    if ofDigits token.val < UInt32.size then return (UInt32.ofNat (ofDigits token.val), next)
    else
      throw (.refused
        (.exponentOverflow cursor.position next.position (String.ofList token.val)))

/-- The power of the variable at the cursor, or zero if there is none. -/
def scanPower (cursor : Cursor text) : Scan (UInt32 × Cursor text) := do
  match ← cursor.eat 'x' with
  | none => return (0, cursor)
  | some next =>
    match ← next.eat '^' with
    | none => return (1, next)
    | some next => next.scanExponent

/-- The term between the cursor and its stop. -/
def scanTerm (f : Format) (cursor : Cursor text) : Scan (Term f) := do
  let (factor, cursor) ← cursor.scanSign f
  let (coefficient, cursor) ← cursor.scanNumber factor
  let (power, cursor) ← cursor.scanPower
  match ← cursor.peek with
  | some c => throw (.refused (.unexpectedChar cursor.position c.val))
  | none => return ⟨coefficient, power⟩

end Cursor

/-- The characters of a text with their positions. -/
def charIndices (start : Nat) : List Char → List (Nat × Char)
  | [] => []
  | c :: rest => (start, c) :: charIndices (start + c.utf8Size) rest

def signPositions (start : Nat) (text : List Char) : List Nat :=
  ((charIndices start text).filter fun item ↦ isSign item.2).map Prod.fst

/-- Where the terms of a text begin. -/
def spanStarts (text : List Char) : List Nat :=
  let signs := signPositions 0 text
  if signs.head? = some 0 then signs else 0 :: signs

/-- The spans of the terms of a text. -/
def spans (text : List Char) : List Span :=
  List.zipWith Span.mk (spanStarts text) ((spanStarts text).tail ++ [byteLength text])

/-- The terms of a text, read span by span. -/
def scanTerms (f : Format) (text : List Char) : Scan (List (Term f)) :=
  let stripped := strip text
  if stripped.isEmpty then throw (.refused .empty)
  else (spans stripped).mapM fun span ↦
    Cursor.scanTerm f (⟨span.start, span.stop⟩ : Cursor stripped)

end FloatPolynomial
