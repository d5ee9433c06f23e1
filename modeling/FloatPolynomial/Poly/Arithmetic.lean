import FloatPolynomial.Poly.Basic

/-!
# Sums, Multiples, Products and Powers

Sums concatenate the terms of the addends and build one polynomial from them, so each coefficient
is rounded in the order of the addends.  Division by a number multiplies by its rounded
reciprocal.

The product of two polynomials is built from the products of all pairs of terms, the terms of the
left factor in the outer loop.  If one factor is a single term, the other factor is the one iterated
over, which shows in the powers that an overflow reports.

Powers use repeated squaring from the least binary digit of the exponent on, and square only while
digits are left.
-/

namespace FloatPolynomial

namespace Poly

variable {f : Format}

protected def add (p q : Poly f) : Poly f :=
  ofTerms (p.terms ++ q.terms)

instance : Add (Poly f) := ⟨Poly.add⟩

/-- Every coefficient times `factor`.  A zero factor gives the zero polynomial, whatever the
coefficients. -/
def scale (p : Poly f) (factor : Binary f) : Poly f :=
  if factor.isZero then 0
  else ofTerms (p.terms.map fun t ↦ ⟨t.coefficient * factor, t.power⟩)

/-- The polynomial times minus one. -/
protected def neg (p : Poly f) : Poly f :=
  p.scale (-1)

instance : Neg (Poly f) := ⟨Poly.neg⟩

instance : Sub (Poly f) := ⟨fun p q ↦ p + -q⟩

theorem add_def (p q : Poly f) : p + q = ofTerms (p.terms ++ q.terms) := rfl

theorem sub_def (p q : Poly f) : p - q = p + -q := rfl

theorem neg_def (p : Poly f) : -p = p.scale (-1) := rfl

theorem canonical_map_neg {terms : List (Term f)} (h : Canonical terms) :
    Canonical (terms.map fun t ↦ -t) where
  descending := List.pairwise_map.mpr h.descending
  nonzero := by
    intro t ht
    obtain ⟨s, hs, rfl⟩ := List.mem_map.mp ht
    rw [Term.isZero_neg]
    exact h.nonzero s hs

/-- Negation is exact: every coefficient changes its sign. -/
@[simp]
theorem terms_neg (p : Poly f) : (-p).terms = p.terms.map fun t ↦ -t := by
  have hfactor : (-1 : Binary f).isZero = false := by
    rw [Binary.isZero_neg, Binary.isZero_one]
  have hterms : (p.terms.map fun t ↦ (⟨t.coefficient * -1, t.power⟩ : Term f)) =
      p.terms.map fun t ↦ -t :=
    List.map_congr_left fun t _ ↦ congrArg (Term.mk · t.power) (Binary.mul_neg_one _)
  rw [neg_def, scale, hfactor, if_neg Bool.false_ne_true, terms_ofTerms, hterms]
  exact canonicalize_eq_self (canonical_map_neg p.canonical)

/-- The sum of a list of polynomials; each coefficient is added up from left to right. -/
def sum (ps : List (Poly f)) : Poly f :=
  ofTerms (ps.flatMap terms)

/-- Every coefficient times the rounded reciprocal of `divisor`. -/
def divide (p : Poly f) (divisor : Binary f) : Poly f :=
  p.scale (1 / divisor)

/-- Adds a number to the constant coefficient. -/
def addConstant (p : Poly f) (c : Binary f) : Poly f :=
  p.setCoefficient 0 (p.coefficient 0 + c)

/-- Subtracts a number from the constant coefficient. -/
def subConstant (p : Poly f) (c : Binary f) : Poly f :=
  p.addConstant (-c)

/-- The number `c` less the polynomial. -/
def constantSub (c : Binary f) (p : Poly f) : Poly f :=
  (-p).addConstant c

/-- The product with a single term.  A zero term gives the zero polynomial. -/
def mulTerm (p : Poly f) (t : Term f) : Except PowerOverflow (Poly f) :=
  if t.isZero then .ok 0
  else return ofTerms (← p.terms.mapM fun s ↦ s.times t)

/-- All pairs of terms, row by row. -/
def termPairs (left right : List (Term f)) : List (Term f × Term f) :=
  left.flatMap fun s ↦ right.map fun t ↦ (s, t)

/-- The product of two polynomials, unless one of its powers is too large. -/
def mul (p q : Poly f) : Except PowerOverflow (Poly f) :=
  match p.terms, q.terms with
  | [], _ => .ok 0
  | _, [] => .ok 0
  | [t], _ => q.mulTerm t
  | _, [t] => p.mulTerm t
  | left, right => return ofTerms (← (termPairs left right).mapM fun (s, t) ↦ s.times t)

/-- The product of a list of polynomials, from left to right. -/
def product (ps : List (Poly f)) : Except PowerOverflow (Poly f) :=
  ps.foldlM mul 1

/-- Multiplies `result` by `base` to the power `exponent`. -/
def mulPower (result base : Poly f) (exponent : Nat) : Except PowerOverflow (Poly f) :=
  if exponent = 0 then .ok result
  else do
    let result ← if exponent % 2 = 1 then result.mul base else .ok result
    if exponent / 2 = 0 then .ok result
    else mulPower result (← base.mul base) (exponent / 2)

/-- The polynomial to the power `exponent`. -/
def pow (p : Poly f) (exponent : Nat) : Except PowerOverflow (Poly f) :=
  mulPower 1 p exponent

end Poly

end FloatPolynomial
