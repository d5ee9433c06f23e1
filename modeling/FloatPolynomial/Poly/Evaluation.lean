import FloatPolynomial.Poly.Basic

/-!
# Evaluation

Horner's scheme on the terms that are present: between two neighbouring terms the intermediate
result is multiplied by `x` to the difference of their powers, and after the last term by `x` to
its power.

`Poly.hornerLoop` is the scheme as a loop on 32-bit words, which tests every difference and keeps
it.
-/

namespace FloatPolynomial

variable {f : Format}

/-- Continues Horner's scheme from an intermediate result that stands at `power`. -/
def horner (x result : Binary f) (power : UInt32) : List (Term f) → Binary f
  | [] => result * x ^ power.toNat
  | t :: rest =>
    horner x (result * x ^ (power.toNat - t.power.toNat) + t.coefficient) t.power rest

/-- The value of the polynomial at `x`. -/
def Poly.eval (p : Poly f) (x : Binary f) : Binary f :=
  horner x 0 p.degree p.terms

/-- A difference of two powers that would be negative. -/
structure PowerUnderflow where
  power : UInt32
  next : UInt32
  deriving DecidableEq

/-- The difference of two powers, unless it would be negative. -/
def powerGap (power next : UInt32) : Except PowerUnderflow UInt32 :=
  if next ≤ power then .ok (power - next) else .error ⟨power, next⟩

/-- Horner's scheme between two terms: the intermediate result, the power at which it stands, and
the differences of powers that were formed. -/
structure HornerState (f : Format) where
  result : Binary f
  power : UInt32
  gaps : List UInt32

namespace HornerState

/-- The next term is added to the result, after it has come down to the power of the term. -/
def step (x : Binary f) (state : HornerState f) (t : Term f) :
    Except PowerUnderflow (HornerState f) := do
  let gap ← powerGap state.power t.power
  return ⟨state.result * x ^ gap.toNat + t.coefficient, t.power, state.gaps ++ [gap]⟩

/-- The value once no terms are left. -/
def value (x : Binary f) (state : HornerState f) : Binary f :=
  state.result * x ^ state.power.toNat

end HornerState

/-- Horner's scheme as a loop over the terms, from the degree on. -/
def Poly.hornerLoop (p : Poly f) (x : Binary f) : Except PowerUnderflow (HornerState f) :=
  p.terms.foldlM (HornerState.step x) ⟨0, p.degree, []⟩

end FloatPolynomial
