import FloatPolynomial.Binary.Format

/-!
# Binary Floating-Point Numbers

A number of a format is a signed whole number of units, a signed infinity, or not a number.  All
non-numbers are one value, so equality of this type is equality of bit patterns up to the sign and
the payload of a non-number, which its words have: `Word`.  `Binary.equal` is the numerical
comparison, in which the two zeros agree and a non-number differs from itself.

Exact results enter the format through `Binary.round`, which takes the nearest number and, of two
nearest ones, that with an even last digit.  `Binary.round_mul` says that numbers of the format
are kept.
-/

namespace FloatPolynomial

/-- A floating-point number of format `f`. -/
inductive Binary (f : Format) where
  | nan
  | infinite (negative : Bool)
  | finite (negative : Bool) (units : Nat) (representable : f.Representable units)
  deriving DecidableEq

namespace Binary

variable {f : Format}

/-- A signed number of units, infinite when it is too large for the format. -/
def ofUnits (f : Format) (negative : Bool) (units : Nat) : Binary f :=
  if h : f.Representable units then finite negative units h else infinite negative

/-- The number of units nearest to `numerator / denominator` among those with no digit after the
last place. -/
def roundedUnits (f : Format) (numerator denominator : Nat) : Nat :=
  let step := 2 ^ f.place (numerator / denominator)
  nearestQuotient numerator (denominator * step) * step

/-- The number nearest to `numerator / denominator` units, with the given sign. -/
def round (f : Format) (negative : Bool) (numerator denominator : Nat) : Binary f :=
  ofUnits f negative (roundedUnits f numerator denominator)

theorem roundedUnits_mul {units denominator : Nat} (h : f.Representable units)
    (hpos : 0 < denominator) :
    roundedUnits f (units * denominator) denominator = units := by
  obtain ⟨quotient, hquotient⟩ := h.1
  have hstep : 0 < denominator * 2 ^ f.place units := Nat.mul_pos hpos (Nat.two_pow_pos _)
  have hproduct : units * denominator = quotient * (denominator * 2 ^ f.place units) := by
    rw [Nat.mul_left_comm, Nat.mul_comm quotient, ← hquotient, Nat.mul_comm]
  rw [roundedUnits, Nat.mul_div_cancel _ hpos, hproduct, nearestQuotient_mul_left _ hstep,
    Nat.mul_comm, ← hquotient]

/-- Rounding keeps a number of the format. -/
theorem round_mul {units denominator : Nat} (negative : Bool) (h : f.Representable units)
    (hpos : 0 < denominator) :
    round f negative (units * denominator) denominator = finite negative units h := by
  rw [round, roundedUnits_mul h hpos, ofUnits, dif_pos h]

theorem round_units {units : Nat} (negative : Bool) (h : f.Representable units) :
    round f negative units 1 = finite negative units h := by
  have hround := round_mul negative h Nat.one_pos
  rwa [Nat.mul_one] at hround

@[simp]
theorem round_zero (negative : Bool) {denominator : Nat} (hpos : 0 < denominator) :
    round f negative 0 denominator = finite negative 0 f.representable_zero := by
  have hround := round_mul negative f.representable_zero hpos
  rwa [Nat.zero_mul] at hround

instance : Zero (Binary f) := ⟨finite false 0 f.representable_zero⟩

instance : One (Binary f) := ⟨finite false (2 ^ f.scale) f.representable_one⟩

instance : Inhabited (Binary f) := ⟨0⟩

theorem zero_def : (0 : Binary f) = finite false 0 f.representable_zero := rfl

theorem one_def : (1 : Binary f) = finite false (2 ^ f.scale) f.representable_one := rfl

/-- Whether the number is one of the two zeros. -/
def isZero : Binary f → Bool
  | finite _ units _ => units == 0
  | _ => false

/-- Whether the number carries a minus sign; a non-number carries none. -/
def isNegative : Binary f → Bool
  | nan => false
  | infinite negative => negative
  | finite negative _ _ => negative

/-- Whether the number is neither infinite nor a non-number. -/
def isFinite : Binary f → Bool
  | finite _ _ _ => true
  | _ => false

/-- The number with the opposite sign. -/
protected def neg : Binary f → Binary f
  | nan => nan
  | infinite negative => infinite (!negative)
  | finite negative units h => finite (!negative) units h

instance : Neg (Binary f) := ⟨Binary.neg⟩

/-- The number without its sign. -/
def abs : Binary f → Binary f
  | nan => nan
  | infinite _ => infinite false
  | finite _ units h => finite false units h

/-- The integer `-units` or `units`. -/
def signedUnits (negative : Bool) (units : Nat) : Int :=
  if negative then -units else units

/-- Numerical equality: the two zeros are equal, and a non-number equals nothing. -/
def equal : Binary f → Binary f → Bool
  | infinite a, infinite b => a == b
  | finite a m _, finite b n _ => signedUnits a m == signedUnits b n
  | _, _ => false

/-- Whether the number is one. -/
def isOne (x : Binary f) : Bool :=
  x.equal 1

@[simp]
theorem neg_nan : -(nan : Binary f) = nan := rfl

@[simp]
theorem neg_infinite (negative : Bool) : -(infinite negative : Binary f) = infinite (!negative) :=
  rfl

@[simp]
theorem neg_finite (negative : Bool) (units : Nat) (h : f.Representable units) :
    -(finite negative units h) = finite (!negative) units h := rfl

@[simp]
theorem neg_neg (x : Binary f) : - -x = x := by
  cases x <;> simp

@[simp]
theorem isZero_neg (x : Binary f) : (-x).isZero = x.isZero := by
  cases x <;> rfl

@[simp]
theorem isZero_zero : (0 : Binary f).isZero = true := rfl

@[simp]
theorem isZero_one : (1 : Binary f).isZero = false := by
  exact beq_eq_false_iff_ne.mpr (Nat.ne_of_gt (Nat.two_pow_pos f.scale))

theorem equal_finite_false {x : Binary f} {units : Nat} (h : f.Representable units)
    (hpos : 0 < units) : x.equal (finite false units h) = true ↔ x = finite false units h := by
  rcases x with _ | negative | ⟨negative, own, hown⟩
  · simp [equal]
  · simp [equal]
  · simp only [equal, beq_iff_eq, finite.injEq]
    cases negative with
    | false =>
      have hsigned : signedUnits false own = signedUnits false units ↔ own = units := Int.ofNat_inj
      simpa using hsigned
    | true =>
      have hsigned : signedUnits true own ≠ signedUnits false units := by
        change -(own : Int) ≠ units
        omega
      simpa using hsigned

theorem isOne_iff {x : Binary f} : x.isOne = true ↔ x = 1 :=
  equal_finite_false f.representable_one (Nat.two_pow_pos f.scale)

end Binary

end FloatPolynomial
