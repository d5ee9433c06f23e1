import FloatPolynomial.Binary.Basic
import FloatPolynomial.Decimal.Numeral

/-!
# Decimal Numbers

A decimal is a whole number times a power of ten.  It is rounded into a binary format, written in
positional notation, and read from a run of digits with at most one point.
-/

namespace FloatPolynomial

/-- The number `significand * 10 ^ exponent`. -/
structure Decimal where
  significand : Nat
  exponent : Int
  deriving DecidableEq

namespace Decimal

/-- The binary number nearest to a decimal, with the given sign. -/
def nearest (f : Format) (negative : Bool) (d : Decimal) : Binary f :=
  Binary.round f negative (d.significand * 10 ^ d.exponent.toNat * 2 ^ f.scale)
    (10 ^ (-d.exponent).toNat)

/-- Whether the decimal is so large that it exceeds every finite number by its exponent alone. -/
def exceeds (f : Format) (d : Decimal) : Bool :=
  d.significand != 0 && decide ((2 ^ (f.exponentBits - 1) : Nat) ≤ 3 * d.exponent)

/-- Whether the decimal is zero, or less than half a unit by its exponent alone. -/
def vanishes (f : Format) (d : Decimal) : Bool :=
  d.significand == 0 || decide ((d.significand.log2 + f.scale + 2 : Nat) ≤ -(3 * d.exponent))

/-- The binary number nearest to a decimal, with the given sign.  Exponents that settle the result
by themselves form no power of ten. -/
def toBinary (f : Format) (negative : Bool) (d : Decimal) : Binary f :=
  if d.exceeds f then .infinite negative
  else if d.vanishes f then .finite negative 0 f.representable_zero
  else d.nearest f negative

/-- The digits before and after the point: as many after it as the exponent asks for, and at least
one before it. -/
def placeDigits (d : Decimal) : List Char × List Char :=
  let places := (-d.exponent).toNat
  let whole := digits d.significand ++ List.replicate d.exponent.toNat '0'
  let padded := List.replicate (places + 1 - whole.length) '0' ++ whole
  padded.splitAt (padded.length - places)

/-- The decimal in positional notation, with a point only in front of digits. -/
def toText (d : Decimal) : List Char :=
  let (whole, fraction) := d.placeDigits
  if fraction.isEmpty then whole else whole ++ '.' :: fraction

/-- Reads a run of digits with at most one point; there must be a digit. -/
def ofText? (text : List Char) : Option Decimal :=
  let whole := text.takeWhile (·.isDigit)
  let fraction := (text.dropWhile (·.isDigit)).drop 1
  let pointed := match text.dropWhile (·.isDigit) with
    | [] => true
    | c :: _ => c == '.'
  if pointed && fraction.all (·.isDigit) && !(whole ++ fraction).isEmpty then
    some ⟨ofDigits (whole ++ fraction), -(fraction.length : Int)⟩
  else none

end Decimal

end FloatPolynomial
