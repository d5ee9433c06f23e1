import FloatPolynomial.Json.TermList
import FloatPolynomial.Poly.Arithmetic
import FloatPolynomial.Text.Reader

/-!
# Sessions on Registers

A session runs operations whose operands are texts, lists of terms or registers, and may keep each
result in a register.  An operation that fails keeps nothing, and the session goes on.
-/

namespace FloatPolynomial

/-- What an operation can fail with. -/
inductive Failure where
  | parse (e : ParseError)
  | overflow (e : PowerOverflow)
  | json
  deriving DecidableEq

/-- The polynomials that a session keeps, by number. -/
abbrev Registers (f : Format) := Array (Poly f)

/-- A polynomial as an operation names it. -/
inductive Operand (f : Format) where
  | text (text : List Char)
  | terms (terms : List (Term f))
  | register (index : Nat)

/-- The operations that give a polynomial. -/
inductive Operation (f : Format) where
  | zero
  | one
  | constant (c : Binary f)
  | load (p : Operand f)
  | readJson (text : List Char)
  | add (a b : Operand f)
  | sub (a b : Operand f)
  | mul (a b : Operand f)
  | neg (p : Operand f)
  | scale (p : Operand f) (factor : Binary f)
  | divide (p : Operand f) (divisor : Binary f)
  | addConstant (p : Operand f) (c : Binary f)
  | subConstant (p : Operand f) (c : Binary f)
  | constantSub (c : Binary f) (p : Operand f)
  | mulTerm (p : Operand f) (t : Term f)
  | pow (p : Operand f) (exponent : UInt32)
  | setCoefficient (p : Operand f) (power : UInt32) (value : Binary f)
  | sum (ps : List (Operand f))
  | product (ps : List (Operand f))

/-- An operation and the register for its result, if it is kept. -/
structure Step (f : Format) where
  operation : Operation f
  destination : Option Nat

namespace Session

variable {f : Format}

/-- Registers that hold zero polynomials. -/
def start (f : Format) (count : Nat) : Registers f :=
  Array.replicate count 0

/-- The polynomial that an operand stands for. -/
def resolve (registers : Registers f) : Operand f → Except Failure (Poly f)
  | .text text => (Poly.parse f text).mapError .parse
  | .terms terms => .ok (Poly.ofTerms terms)
  | .register index => .ok (registers.getD index 0)

/-- The result of an operation.  Operands are read from left to right. -/
def eval (registers : Registers f) : Operation f → Except Failure (Poly f)
  | .zero => return 0
  | .one => return 1
  | .constant c => return Poly.constant c
  | .load p => resolve registers p
  | .readJson text => (Poly.readJson? f text).elim (.error .json) .ok
  | .add a b => return (← resolve registers a) + (← resolve registers b)
  | .sub a b => return (← resolve registers a) - (← resolve registers b)
  | .mul a b => do ((← resolve registers a).mul (← resolve registers b)).mapError .overflow
  | .neg p => return -(← resolve registers p)
  | .scale p factor => return (← resolve registers p).scale factor
  | .divide p divisor => return (← resolve registers p).divide divisor
  | .addConstant p c => return (← resolve registers p).addConstant c
  | .subConstant p c => return (← resolve registers p).subConstant c
  | .constantSub c p => return Poly.constantSub c (← resolve registers p)
  | .mulTerm p t => do ((← resolve registers p).mulTerm t).mapError .overflow
  | .pow p exponent => do ((← resolve registers p).pow exponent.toNat).mapError .overflow
  | .setCoefficient p power value =>
    return (← resolve registers p).setCoefficient power value
  | .sum ps => return Poly.sum (← ps.mapM (resolve registers))
  | .product ps => do (Poly.product (← ps.mapM (resolve registers))).mapError .overflow

/-- The registers after an operation with a given result. -/
def keep (registers : Registers f) (destination : Option Nat) :
    Except Failure (Poly f) → Registers f
  | .ok p => destination.elim registers fun index ↦ registers.setIfInBounds index p
  | .error _ => registers

/-- The registers after one step. -/
def runStep (registers : Registers f) (step : Step f) : Registers f :=
  keep registers step.destination (eval registers step.operation)

/-- The registers after a list of steps. -/
def run (registers : Registers f) (steps : List (Step f)) : Registers f :=
  steps.foldl runStep registers

end Session

end FloatPolynomial
