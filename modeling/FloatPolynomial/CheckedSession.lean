import FloatPolynomial.Session

/-!
# Sessions with Assertions

The operations of a session on bare lists of terms, which carry no invariant in their type.
Wherever an operation relies on the list that it has built, it tests it by `isCanonical`, and a
list that fails the test is a fault of its own.  Lists enter through the constructors only.

The session keeps the result of every step, so that a failed assertion anywhere in a run stays
visible.
-/

namespace FloatPolynomial

/-- What keeps an operation on bare lists from giving one: a refusal, or a failed assertion. -/
inductive Fault where
  | refused (reason : Failure)
  | notCanonical
  deriving DecidableEq

namespace CheckedTerms

variable {f : Format}

/-- A list of terms, or what kept it from being built. -/
abbrev Checked (f : Format) := Except Fault (List (Term f))

/-- Asserts that a list is canonical. -/
def assertCanonical (terms : List (Term f)) : Checked f :=
  if isCanonical terms then .ok terms else .error .notCanonical

/-- Builds the canonical list, and asserts that it is one. -/
def build (terms : List (Term f)) : Checked f :=
  assertCanonical (canonicalize terms)

def add (left right : List (Term f)) : Checked f :=
  build (left ++ right)

def scale (terms : List (Term f)) (factor : Binary f) : Checked f :=
  if factor.isZero then .ok []
  else build (terms.map fun t ↦ ⟨t.coefficient * factor, t.power⟩)

def neg (terms : List (Term f)) : Checked f :=
  scale terms (-1)

def sub (left right : List (Term f)) : Checked f := do
  add left (← neg right)

def divide (terms : List (Term f)) (divisor : Binary f) : Checked f :=
  scale terms (1 / divisor)

/-- Edits the list in place, where the search ends, and asserts that it is still canonical. -/
def setCoefficient (terms : List (Term f)) (power : UInt32) (value : Binary f) : Checked f :=
  assertCanonical (writeTerm power value terms)

def addConstant (terms : List (Term f)) (c : Binary f) : Checked f :=
  setCoefficient terms 0 (readTerm 0 terms + c)

def subConstant (terms : List (Term f)) (c : Binary f) : Checked f :=
  addConstant terms (-c)

def constantSub (c : Binary f) (terms : List (Term f)) : Checked f := do
  addConstant (← neg terms) c

/-- Refuses where a power is too large. -/
def refuse {α : Type} (result : Except PowerOverflow α) : Except Fault α :=
  result.mapError (.refused ∘ .overflow)

def mulTerm (terms : List (Term f)) (t : Term f) : Checked f :=
  if t.isZero then .ok [] else do build (← refuse (terms.mapM fun s ↦ s.times t))

/-- The product.  The list of all pairs is asserted to be canonical twice: where it is built, and
where it is taken for a polynomial without being built again. -/
def mul (left right : List (Term f)) : Checked f :=
  match left, right with
  | [], _ => .ok []
  | _, [] => .ok []
  | [t], _ => mulTerm right t
  | _, [t] => mulTerm left t
  | left, right => do
    let products ← refuse ((Poly.termPairs left right).mapM fun (s, t) ↦ s.times t)
    assertCanonical (← build products)

def mulPower (result base : List (Term f)) (exponent : Nat) : Checked f :=
  if exponent = 0 then .ok result
  else do
    let result ← if exponent % 2 = 1 then mul result base else .ok result
    if exponent / 2 = 0 then .ok result
    else mulPower result (← mul base base) (exponent / 2)

def constant (c : Binary f) : Checked f :=
  build [⟨c, 0⟩]

def pow (terms : List (Term f)) (exponent : Nat) : Checked f := do
  mulPower (← constant 1) terms exponent

def sum (lists : List (List (Term f))) : Checked f :=
  build lists.flatten

def product (lists : List (List (Term f))) : Checked f := do
  lists.foldlM mul (← constant 1)

end CheckedTerms

namespace CheckedSession

open CheckedTerms

variable {f : Format}

/-- The registers, and the results of all steps so far. -/
structure Trace (f : Format) where
  registers : Array (List (Term f))
  results : List (Checked f)

/-- Registers that hold empty lists, before the first step. -/
def start (f : Format) (count : Nat) : Trace f where
  registers := Array.replicate count []
  results := []

/-- The list of terms that an operand stands for. -/
def resolve (registers : Array (List (Term f))) : Operand f → Checked f
  | .text text => do build (← (readTerms f text).mapError (.refused ∘ .parse))
  | .terms terms => build terms
  | .register index => .ok (registers.getD index [])

/-- The terms of a JSON value, as they are listed. -/
def listedTerms? (f : Format) : Json → Option (List (Term f))
  | .array items => items.mapM (Term.ofJson? f)
  | _ => none

def readJson (f : Format) (text : List Char) : Checked f :=
  match (Json.parse text).bind (listedTerms? f) with
  | some terms => build terms
  | none => .error (.refused .json)

/-- The result of an operation.  Operands are read from left to right. -/
def eval (registers : Array (List (Term f))) : Operation f → Checked f
  | .zero => return []
  | .one => constant 1
  | .constant c => constant c
  | .load p => resolve registers p
  | .readJson text => readJson f text
  | .add a b => do add (← resolve registers a) (← resolve registers b)
  | .sub a b => do sub (← resolve registers a) (← resolve registers b)
  | .mul a b => do mul (← resolve registers a) (← resolve registers b)
  | .neg p => do neg (← resolve registers p)
  | .scale p factor => do scale (← resolve registers p) factor
  | .divide p divisor => do divide (← resolve registers p) divisor
  | .addConstant p c => do addConstant (← resolve registers p) c
  | .subConstant p c => do subConstant (← resolve registers p) c
  | .constantSub c p => do constantSub c (← resolve registers p)
  | .mulTerm p t => do mulTerm (← resolve registers p) t
  | .pow p exponent => do pow (← resolve registers p) exponent.toNat
  | .setCoefficient p power value => do setCoefficient (← resolve registers p) power value
  | .sum ps => do sum (← ps.mapM (resolve registers))
  | .product ps => do product (← ps.mapM (resolve registers))

/-- The registers after an operation with a given result; a failure keeps nothing. -/
def keep (registers : Array (List (Term f))) (destination : Option Nat) :
    Checked f → Array (List (Term f))
  | .ok terms => destination.elim registers fun index ↦ registers.setIfInBounds index terms
  | .error _ => registers

def runStep (trace : Trace f) (step : Step f) : Trace f :=
  let result := eval trace.registers step.operation
  ⟨keep trace.registers step.destination result, trace.results ++ [result]⟩

def run (trace : Trace f) (steps : List (Step f)) : Trace f :=
  steps.foldl runStep trace

end CheckedSession

end FloatPolynomial
