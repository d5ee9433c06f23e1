import FloatPolynomial.Decimal.OfBinary
import FloatPolynomial.Poly.Basic

/-!
# Writing Polynomials

A style says how the magnitude of a coefficient is written: with the fewest digits that read back
or with a fixed number of places, with or without a plus sign, and padded to a width.

The first term carries its sign, the others follow a spaced `+` or `-`.  The style applies to each
coefficient by itself; a coefficient one in front of the variable is left out, and so is the
power one.

What is written after a sign depends on the number of a coefficient only.  The sign is that of the
coefficient itself, so a word that stands for a non-number is written with its sign bit.
-/

namespace FloatPolynomial

/-- The side of a field on which its text stands. -/
inductive Alignment where
  | left
  | center
  | right
  deriving DecidableEq

/-- The style of a number.  Padding with zeros goes between the sign and the digits and overrides
fill and alignment; without a precision the shortest digits are written.  The alternate form of a
number is its usual one. -/
structure NumberStyle where
  plus : Bool := false
  alternate : Bool := false
  padZeros : Bool := false
  fill : Char := ' '
  alignment : Alignment := .right
  width : Nat := 0
  precision : Option Nat := none
  deriving DecidableEq

namespace NumberStyle

/-- Pads a sign and a text to the width of the style.  Of an odd padding around a centered text,
the larger half goes to the right. -/
def pad (style : NumberStyle) (sign body : List Char) : List Char :=
  let missing := style.width - (sign.length + body.length)
  if style.padZeros then sign ++ List.replicate missing '0' ++ body
  else
    let before := match style.alignment with
      | .left => 0
      | .center => missing / 2
      | .right => missing
    List.replicate before style.fill ++ sign ++ body ++
      List.replicate (missing - before) style.fill

/-- A finite magnitude in digits; of two equally near shortest decimals the larger is taken. -/
def finiteText (style : NumberStyle) (f : Format) (units : Nat) : List Char :=
  match style.precision with
  | none => (Decimal.shortest f .up units).toText
  | some places => (Decimal.fixed f places units).toText

/-- The magnitude of a number.  A non-number takes no plus sign, and infinities and non-numbers
ignore the precision. -/
def magnitudeText (style : NumberStyle) {f : Format} (x : Binary f) : List Char :=
  let sign := if style.plus then ['+'] else []
  match x with
  | .nan => style.pad [] ['N', 'a', 'N']
  | .infinite _ => style.pad sign ['i', 'n', 'f']
  | .finite _ units _ => style.pad sign (style.finiteText f units)

end NumberStyle

variable {f : Format} {α : Type} [Zero α] [Coefficient f α]

namespace Term

/-- The variable with its power; nothing for power zero. -/
def variableText (power : UInt32) : List Char :=
  if power = 0 then []
  else if power = 1 then ['x']
  else 'x' :: '^' :: digits power.toNat

/-- The term without its sign. -/
def unsignedText (style : NumberStyle) (t : Term f) : List Char :=
  let coefficient :=
    if t.power ≠ 0 ∧ t.coefficient.abs.isOne then [] else style.magnitudeText t.coefficient
  coefficient ++ variableText t.power

/-- The term with a minus sign if it is negative. -/
def text (style : NumberStyle) (t : Term f α) : List Char :=
  (if Coefficient.isNegative t.coefficient then ['-'] else []) ++ t.number.unsignedText style

/-- The term as it follows another one. -/
def followingText (style : NumberStyle) (t : Term f α) : List Char :=
  [' ', if Coefficient.isNegative t.coefficient then '-' else '+', ' '] ++
    t.number.unsignedText style

end Term

/-- The text of a polynomial; the zero polynomial is written as the number zero. -/
def Poly.text (style : NumberStyle) (p : Poly f α) : List Char :=
  match p.terms with
  | [] => style.magnitudeText (0 : Binary f)
  | first :: others => first.text style ++ others.flatMap (Term.followingText style)

/-- A word of a non-number is written with its sign. -/
example :
    (⟨⟨0xffc00000#32⟩, 1⟩ : Term .single (Word .single)).text {} = ['-', 'N', 'a', 'N', 'x'] := by
  decide

end FloatPolynomial
