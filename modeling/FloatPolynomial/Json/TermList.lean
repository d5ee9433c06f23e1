import FloatPolynomial.Json.Value
import FloatPolynomial.Decimal.OfBinary
import FloatPolynomial.Poly.Basic

/-!
# Polynomials in JSON

A polynomial is an array of terms.  A term is an object with a number `multiplier` and an unsigned
integer `power`, among any other keys, or an array of just these two values.  The array may list
the terms in any order and repeat powers.

Written are objects, in the order of the polynomial; a coefficient that JSON cannot express is
written as null, which is not read back.  A coefficient with its point close to its digits is
written in positional notation, and any other one with an exponent.
-/

namespace FloatPolynomial

variable {f : Format}

/-- The string with the given characters. -/
def Key.ofString (name : String) : Key :=
  name.toList.map .char

/-- The names of the two members of a term. -/
def multiplierName : String := "multiplier"

def powerName : String := "power"

/-- A coefficient, from a number that is not too large for the 64-bit format. -/
def coefficientOfJson? (f : Format) : Json → Option (Binary f)
  | .number n => if (n.toBinary .double).isFinite then some (n.toCoefficient f) else none
  | _ => none

/-- A power of 32 bits, written as an unsigned integer. -/
def powerOfJson? : Json → Option UInt32
  | .number n => do
    let power ← n.natural?
    if power < UInt32.size then some (UInt32.ofNat power) else none
  | _ => none

/-- The value of the only member with a given name. -/
def uniqueMember? (name : List Char) (members : List (List Char × Json)) : Option Json :=
  match members.filter fun m ↦ m.1 == name with
  | [(_, v)] => some v
  | _ => none

/-- The members of an object with the characters of their keys. -/
def namedMembers? (members : List (Key × Json)) : Option (List (List Char × Json)) :=
  members.mapM fun (key, v) ↦ do return (← StringPart.characters? key, v)

/-- The term with a given coefficient and power. -/
def termOfValues? (f : Format) (multiplier power : Json) : Option (Term f) := do
  return ⟨← coefficientOfJson? f multiplier, ← powerOfJson? power⟩

def Term.ofJson? (f : Format) : Json → Option (Term f)
  | .object members => do
    let members ← namedMembers? members
    termOfValues? f (← uniqueMember? multiplierName.toList members)
      (← uniqueMember? powerName.toList members)
  | .array [multiplier, power] => termOfValues? f multiplier power
  | _ => none

def Poly.ofJson? (f : Format) : Json → Option (Poly f)
  | .array items => do return ofTerms (← items.mapM (Term.ofJson? f))
  | _ => none

/-- The polynomial that a JSON text denotes. -/
def Poly.readJson? (f : Format) (text : List Char) : Option (Poly f) := do
  Poly.ofJson? f (← Json.parse text)

/-- A decimal as a JSON number with at least one digit after the point. -/
def JsonNumber.positional (negative : Bool) (d : Decimal) : JsonNumber :=
  let (whole, fraction) := d.placeDigits
  { negative, whole, fraction := if fraction.isEmpty then ['0'] else fraction }

/-- A decimal as a JSON number with an exponent and one digit before the point.  A single digit has
no point after it. -/
def JsonNumber.scientific (negative : Bool) (d : Decimal) : JsonNumber :=
  let run := digits d.significand
  { negative, whole := run.take 1, fraction := run.drop 1,
    exponent := some (d.exponent + (run.drop 1).length) }

/-- A decimal as it is written in JSON: in positional notation if at most 16 digits stand before the
point and at most four zeros between it and the first digit. -/
def JsonNumber.ofDecimal (negative : Bool) (d : Decimal) : JsonNumber :=
  let whole := d.exponent + (digits d.significand).length
  if -5 < whole ∧ whole ≤ 16 then positional negative d else scientific negative d

/-- A coefficient with the fewest digits that read back; of two equally near shortest decimals the
one with an even last digit is taken. -/
def Binary.toJson : Binary f → Json
  | .finite negative units _ =>
    .number (JsonNumber.ofDecimal negative (Decimal.shortest f .even units))
  | _ => .null

def Term.toJson (t : Term f) : Json :=
  .object [(Key.ofString multiplierName, t.coefficient.toJson),
    (Key.ofString powerName, .number { whole := digits t.power.toNat })]

def Poly.toJson (p : Poly f) : Json :=
  .array (p.terms.map Term.toJson)

/-- The polynomial as a JSON text without blanks. -/
def Poly.writeJson (p : Poly f) : List Char :=
  p.toJson.text

end FloatPolynomial
