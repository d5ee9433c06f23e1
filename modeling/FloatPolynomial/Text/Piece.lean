import FloatPolynomial.Decimal.Basic
import FloatPolynomial.Term

/-!
# Pieces of a Polynomial's Text

A text without white space is cut into pieces before each sign.  A piece consists, in this order,
of an optional sign, a run of digits and points, an optional variable that may carry a caret and a
run of digits, and whatever is left.  It denotes a term if the first run is empty or a decimal
number, the second run, after a caret, is a number of 32 bits, and nothing is left.

Nothing of the text is lost: `flatten_pieces` and `Piece.text_ofText` put it together again.
-/

namespace FloatPolynomial

/-- What keeps a text from denoting a polynomial.  Positions count the bytes of the text without
its white space, in UTF-8. -/
inductive ParseError where
  | empty
  | malformedNumber (start stop : Nat) (token : String)
  | missingExponent (position : Nat)
  | exponentOverflow (start stop : Nat) (token : String)
  | unexpectedChar (position : Nat) (character : Char)
  deriving DecidableEq

def ParseError.message : ParseError → String
  | empty => "empty polynomial pattern"
  | malformedNumber start stop token => s!"invalid numeric token at {start}:{stop}: '{token}'"
  | missingExponent position => s!"no integer after '^' at {position}"
  | exponentOverflow start stop token => s!"exponent out of range at {start}:{stop}: '{token}'"
  | unexpectedChar position character => s!"unexpected character '{character}' at {position}"

def isSign (c : Char) : Bool :=
  c == '+' || c == '-'

/-- The number of bytes of a text in UTF-8. -/
def byteLength (text : List Char) : Nat :=
  text.foldr (fun c length ↦ c.utf8Size + length) 0

@[simp]
theorem byteLength_nil : byteLength [] = 0 := rfl

@[simp]
theorem byteLength_cons (c : Char) (text : List Char) :
    byteLength (c :: text) = c.utf8Size + byteLength text := rfl

@[simp]
theorem byteLength_append (front back : List Char) :
    byteLength (front ++ back) = byteLength front + byteLength back := by
  induction front with
  | nil => exact (Nat.zero_add _).symm
  | cons c rest ih => rw [List.cons_append, byteLength_cons, byteLength_cons, ih, Nat.add_assoc]

theorem utf8ByteSize_ofList (text : List Char) :
    (String.ofList text).utf8ByteSize = byteLength text := by
  induction text with
  | nil => rfl
  | cons c rest ih =>
    have hsplit : String.ofList (c :: rest) = String.singleton c ++ String.ofList rest := by
      rw [String.singleton_eq_ofList, ← String.ofList_append, List.singleton_append]
    rw [hsplit, String.utf8ByteSize_append, String.utf8ByteSize_singleton, ih, byteLength_cons]

/-- Puts a character in front of the first piece, or in front of all of them if the first piece
begins with a sign. -/
def attach (c : Char) : List (List Char) → List (List Char)
  | [] => [[c]]
  | first :: others =>
    if first.head?.any isSign then [c] :: first :: others else (c :: first) :: others

/-- The pieces of a text, cut before each sign that is not its first character. -/
def pieces (text : List Char) : List (List Char) :=
  text.foldr attach []

/-- The pieces with the positions of their first bytes. -/
def placed (start : Nat) : List (List Char) → List (Nat × List Char)
  | [] => []
  | piece :: others => (start, piece) :: placed (start + byteLength piece) others

@[simp]
theorem flatten_attach (c : Char) (parts : List (List Char)) :
    (attach c parts).flatten = c :: parts.flatten := by
  cases parts with
  | nil => rfl
  | cons first others =>
    rw [attach]
    split <;> rfl

@[simp]
theorem flatten_pieces (text : List Char) : (pieces text).flatten = text := by
  induction text with
  | nil => rfl
  | cons c rest ih =>
    rw [pieces, List.foldr_cons, flatten_attach]
    exact congrArg (c :: ·) ih

/-! ## The parts of a piece -/

/-- The variable of a term: absent, alone, or raised to a power that is written after a caret. -/
inductive VariablePart where
  | absent
  | alone
  | raised (digits : List Char)
  deriving DecidableEq

namespace VariablePart

def text : VariablePart → List Char
  | absent => []
  | alone => ['x']
  | raised digits => 'x' :: '^' :: digits

/-- Splits a text after its variable. -/
def split : List Char → VariablePart × List Char
  | 'x' :: '^' :: rest => (raised (rest.takeWhile (·.isDigit)), rest.dropWhile (·.isDigit))
  | 'x' :: rest => (alone, rest)
  | rest => (absent, rest)

theorem text_split (cs : List Char) : (split cs).1.text ++ (split cs).2 = cs := by
  unfold split
  split <;> simp [text]

end VariablePart

/-- The parts of a piece, in the order of the text. -/
structure Piece where
  sign : Option Char
  number : List Char
  variablePart : VariablePart
  rest : List Char
  deriving DecidableEq

namespace Piece

/-- Digits and points, of which numbers consist. -/
def isNumeric (c : Char) : Bool :=
  c.isDigit || c == '.'

/-- Takes a piece apart. -/
def ofText (text : List Char) : Piece :=
  let sign := text.head?.filter isSign
  let unsigned := text.drop sign.toList.length
  let (variablePart, rest) := VariablePart.split (unsigned.dropWhile isNumeric)
  { sign, number := unsigned.takeWhile isNumeric, variablePart, rest }

/-- The text of all parts but the last. -/
def head (p : Piece) : List Char :=
  p.sign.toList ++ p.number ++ p.variablePart.text

def text (p : Piece) : List Char :=
  p.head ++ p.rest

theorem text_ofText (cs : List Char) : (ofText cs).text = cs := by
  have hsign : (cs.head?.filter isSign).toList ++ cs.drop (cs.head?.filter isSign).toList.length =
      cs := by
    cases cs with
    | nil => rfl
    | cons c rest => cases h : isSign c <;> simp [Option.filter, h]
  have hparts := VariablePart.text_split
    ((cs.drop (cs.head?.filter isSign).toList.length).dropWhile isNumeric)
  simp only [text, head, ofText, List.append_assoc] at hparts ⊢
  rw [hparts, List.takeWhile_append_dropWhile, hsign]

/-! ## Reading a piece -/

variable {f : Format}

/-- The coefficient without its sign: one if no number is written. -/
def readMagnitude (f : Format) (start : Nat) (p : Piece) : Except ParseError (Binary f) :=
  if p.number.isEmpty then .ok 1
  else match Decimal.ofText? p.number with
    | some d => .ok (d.toBinary f false)
    | none =>
      let first := start + byteLength p.sign.toList
      .error (.malformedNumber first (first + byteLength p.number) (String.ofList p.number))

/-- The power: zero without a variable, one for a variable alone. -/
def readPower (start : Nat) (p : Piece) : Except ParseError UInt32 :=
  match p.variablePart with
  | .absent => .ok 0
  | .alone => .ok 1
  | .raised digits =>
    let first := start + byteLength (p.sign.toList ++ p.number ++ ['x', '^'])
    if digits.isEmpty then .error (.missingExponent first)
    else if ofDigits digits < UInt32.size then .ok (UInt32.ofNat (ofDigits digits))
    else .error (.exponentOverflow first (first + byteLength digits) (String.ofList digits))

/-- The term that a piece starting at a given byte denotes, or the first fault in it. -/
def read (f : Format) (start : Nat) (p : Piece) : Except ParseError (Term f) := do
  let magnitude ← p.readMagnitude f start
  let power ← p.readPower start
  match p.rest with
  | [] => return ⟨if p.sign = some '-' then -magnitude else magnitude, power⟩
  | c :: _ => throw (.unexpectedChar (start + byteLength p.head) c)

end Piece

end FloatPolynomial
