import FloatPolynomial.Binary.Basic

/-!
# Bit Patterns of Binary Numbers

The interchange encoding: a sign bit, the exponent field, and the digits after the leading one.
Read as one whole number, the last two fields count the magnitudes of the format in increasing
order, so that a magnitude is encoded by its place and its last digits alone.
-/

namespace FloatPolynomial

namespace Format

/-- The bit pattern of the infinite magnitude: every bit of the exponent field is set. -/
def infinityBits (f : Format) : Nat :=
  (2 ^ f.exponentBits - 1) * 2 ^ (f.precision - 1)

/-- The weight of the sign bit. -/
def signWeight (f : Format) : Nat :=
  2 ^ (f.exponentBits + f.precision - 1)

/-- The pattern of a finite magnitude. -/
def magnitudeBits (f : Format) (units : Nat) : Nat :=
  f.place units * 2 ^ (f.precision - 1) + units / 2 ^ f.place units

/-- The number of units with a given pattern.  An exponent field of zero stands for the least
place without a leading digit. -/
def unitsOfBits (f : Format) (bits : Nat) : Nat :=
  let leading := 2 ^ (f.precision - 1)
  let field := bits / leading
  if field = 0 then bits else (bits % leading + leading) * 2 ^ (field - 1)

end Format

namespace Binary

variable {f : Format}

/-- The number with a given bit pattern. -/
def ofBits (f : Format) (bits : Nat) : Binary f :=
  let negative := bits / f.signWeight % 2 == 1
  let magnitude := bits % f.signWeight
  if magnitude < f.infinityBits then ofUnits f negative (f.unitsOfBits magnitude)
  else if magnitude = f.infinityBits then infinite negative
  else nan

/-- The bit pattern of a number; of the patterns of a non-number, the positive quiet one. -/
def toBits : Binary f → Nat
  | nan => f.infinityBits + 2 ^ (f.precision - 2)
  | infinite negative => negative.toNat * f.signWeight + f.infinityBits
  | finite negative units _ => negative.toNat * f.signWeight + f.magnitudeBits units

end Binary

end FloatPolynomial
