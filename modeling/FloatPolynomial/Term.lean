import FloatPolynomial.Binary.Word

/-!
# Terms

A term is a coefficient and the power of the variable it belongs to.  Powers are 32-bit words; a
product whose power would not fit is refused, with the two powers that were to be added.

The coefficient is a number unless another type is given.  What only sorts, finds, adds or writes
coefficients is defined for all types of them, so that it applies to words as well; arithmetic is on
numbers.
-/

namespace FloatPolynomial

/-- The term `coefficient * x ^ power`. -/
structure Term (f : Format) (α : Type := Binary f) where
  coefficient : α
  power : UInt32
  deriving DecidableEq

/-- A product of two powers of the variable whose exponents add up to more than 32 bits hold. -/
structure PowerOverflow where
  left : UInt32
  right : UInt32
  deriving DecidableEq

def PowerOverflow.message (e : PowerOverflow) : String :=
  s!"power overflow in product of x^{e.left} and x^{e.right}"

namespace Term

variable {f : Format}

section Stored

variable {α : Type} [Zero α] [Coefficient f α]

/-- The term with the number that the coefficient stands for. -/
def number (t : Term f α) : Term f :=
  ⟨Coefficient.number t.coefficient, t.power⟩

/-- Whether the coefficient is zero, of either sign. -/
def isZero (t : Term f α) : Bool :=
  Coefficient.isZero t.coefficient

@[simp]
theorem power_number (t : Term f α) : t.number.power = t.power := rfl

@[simp]
theorem isZero_number (t : Term f α) : t.number.isZero = t.isZero := rfl

end Stored

/-- The term with the word of its coefficient. -/
def stored (t : Term f) : Term f (Word f) :=
  ⟨t.coefficient.toWord, t.power⟩

instance : Neg (Term f) := ⟨fun t ↦ ⟨-t.coefficient, t.power⟩⟩

/-- The order of terms in a polynomial: higher powers come first. -/
def compareByPower (s t : Term f) : Ordering :=
  compare t.power s.power

/-- Numerical equality of the coefficients at the same power. -/
def equal (s t : Term f) : Bool :=
  s.coefficient.equal t.coefficient && s.power == t.power

/-- The product of two terms, unless its power is too large. -/
def times (s t : Term f) : Except PowerOverflow (Term f) :=
  if s.power.toNat + t.power.toNat < UInt32.size then
    .ok ⟨s.coefficient * t.coefficient, s.power + t.power⟩
  else .error ⟨s.power, t.power⟩

/-- The value of the term at `x`. -/
def eval (t : Term f) (x : Binary f) : Binary f :=
  t.coefficient * x ^ t.power.toNat

@[simp]
theorem coefficient_neg (t : Term f) : (-t).coefficient = -t.coefficient := rfl

@[simp]
theorem power_neg (t : Term f) : (-t).power = t.power := rfl

theorem isZero_eq (t : Term f) : t.isZero = t.coefficient.isZero := rfl

@[simp]
theorem isZero_neg (t : Term f) : (-t).isZero = t.isZero :=
  Binary.isZero_neg t.coefficient

end Term

end FloatPolynomial
