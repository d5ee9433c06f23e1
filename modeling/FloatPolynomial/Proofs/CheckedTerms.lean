import FloatPolynomial.CheckedSession

/-!
# Operations with Their Assertions

Each operation on bare lists has one lemma: on the terms of polynomials it gives the terms of the polynomial
that the operation of the same name gives, or the same refusal.  In particular no test fails.
-/

namespace FloatPolynomial

namespace CheckedTerms

variable {f : Format}

/-- The terms of a result. -/
def bare (result : Except Failure (Poly f)) : Checked f :=
  (result.map Poly.terms).mapError .refused

@[simp]
theorem bare_ok (p : Poly f) : bare (.ok p) = .ok p.terms := rfl

@[simp]
theorem bare_error (e : Failure) : bare (.error e : Except Failure (Poly f)) = .error (.refused e) :=
  rfl

/-- Steps that agree on the terms of every polynomial agree after any result. -/
theorem bare_bind {result : Except Failure (Poly f)} {next : Poly f → Except Failure (Poly f)}
    {step : List (Term f) → Checked f} (h : ∀ p : Poly f, step p.terms = bare (next p)) :
    bare result >>= step = bare (result >>= next) := by
  cases result with
  | error e => rfl
  | ok p => exact h p

theorem assertCanonical_terms (p : Poly f) : assertCanonical p.terms = .ok p.terms :=
  if_pos ((isCanonical_iff p.terms).mpr p.canonical)

/-- The assertion holds for every list, whatever its order and its coefficients. -/
theorem build_eq (terms : List (Term f)) : build terms = .ok (Poly.ofTerms terms).terms :=
  assertCanonical_terms (Poly.ofTerms terms)

theorem add_terms (p q : Poly f) : add p.terms q.terms = .ok (p + q).terms :=
  build_eq _

theorem scale_terms (p : Poly f) (factor : Binary f) :
    scale p.terms factor = .ok (p.scale factor).terms := by
  unfold scale Poly.scale
  split
  · rfl
  · exact build_eq _

theorem neg_terms (p : Poly f) : neg p.terms = .ok (-p).terms :=
  scale_terms p (-1)

theorem sub_terms (p q : Poly f) : sub p.terms q.terms = .ok (p - q).terms := by
  rw [sub, neg_terms]
  exact add_terms p (-q)

theorem divide_terms (p : Poly f) (divisor : Binary f) :
    divide p.terms divisor = .ok (p.divide divisor).terms :=
  scale_terms p (1 / divisor)

theorem setCoefficient_terms (p : Poly f) (power : UInt32) (value : Binary f) :
    setCoefficient p.terms power value = .ok (p.setCoefficient power value).terms :=
  assertCanonical_terms (p.setCoefficient power value)

theorem addConstant_terms (p : Poly f) (c : Binary f) :
    addConstant p.terms c = .ok (p.addConstant c).terms :=
  setCoefficient_terms p 0 (p.coefficient 0 + c)

theorem constantSub_terms (c : Binary f) (p : Poly f) :
    constantSub c p.terms = .ok (Poly.constantSub c p).terms := by
  rw [constantSub, neg_terms]
  exact addConstant_terms (-p) c

/-- The terms of a product. -/
def bareProduct (result : Except PowerOverflow (Poly f)) : Checked f :=
  bare (result.mapError .overflow)

@[simp]
theorem bareProduct_ok (p : Poly f) : bareProduct (.ok p) = .ok p.terms := rfl

theorem bareProduct_bind {result : Except PowerOverflow (Poly f)}
    {next : Poly f → Except PowerOverflow (Poly f)} {step : List (Term f) → Checked f}
    (h : ∀ p : Poly f, step p.terms = bareProduct (next p)) :
    bareProduct result >>= step = bareProduct (result >>= next) := by
  cases result with
  | error e => rfl
  | ok p => exact h p

theorem mulTerm_terms (p : Poly f) (t : Term f) :
    mulTerm p.terms t = bareProduct (p.mulTerm t) := by
  unfold mulTerm Poly.mulTerm
  split
  · rfl
  · cases p.terms.mapM fun s ↦ s.times t with
    | error e => rfl
    | ok products => exact build_eq products

theorem mul_terms (p q : Poly f) : mul p.terms q.terms = bareProduct (p.mul q) := by
  match hp : p.terms, hq : q.terms with
  | [], _ => simp only [mul, Poly.mul, hp, hq]; rfl
  | _ :: _, [] => simp only [mul, Poly.mul, hp, hq]; rfl
  | [s], t :: right =>
    have hterm := mulTerm_terms q s
    rw [hq] at hterm
    simpa only [mul, Poly.mul, hp, hq] using hterm
  | s :: s' :: left, [t] =>
    have hterm := mulTerm_terms p t
    rw [hp] at hterm
    simpa only [mul, Poly.mul, hp, hq] using hterm
  | s :: s' :: left, t :: t' :: right =>
    simp only [mul, Poly.mul, hp, hq]
    cases (Poly.termPairs (s :: s' :: left) (t :: t' :: right)).mapM fun pair ↦
        pair.1.times pair.2 with
    | error e => rfl
    | ok products =>
      change build products >>= assertCanonical = _
      rw [build_eq]
      exact assertCanonical_terms (Poly.ofTerms products)

theorem mulPower_terms (result base : Poly f) (exponent : Nat) :
    mulPower result.terms base.terms exponent =
      bareProduct (Poly.mulPower result base exponent) := by
  induction exponent using Nat.strongRecOn generalizing result base with
  | ind exponent ih =>
    have hnext (p : Poly f) (hpos : ¬exponent = 0) :
        (if exponent / 2 = 0 then .ok p.terms
          else do mulPower p.terms (← mul base.terms base.terms) (exponent / 2)) =
        bareProduct (if exponent / 2 = 0 then .ok p
          else do Poly.mulPower p (← base.mul base) (exponent / 2)) := by
      split
      · rfl
      · rw [mul_terms]
        exact bareProduct_bind fun square ↦
          ih _ (Nat.div_lt_self (Nat.pos_of_ne_zero hpos) (by decide)) p square
    rw [mulPower, Poly.mulPower]
    split
    · rfl
    · dsimp only
      split
      · rw [mul_terms]
        exact bareProduct_bind fun p ↦ hnext p ‹_›
      · exact hnext result ‹_›

theorem constant_terms (c : Binary f) : constant c = .ok (Poly.constant c).terms :=
  build_eq _

theorem pow_terms (p : Poly f) (exponent : Nat) :
    pow p.terms exponent = bareProduct (p.pow exponent) := by
  rw [pow, constant_terms]
  exact mulPower_terms 1 p exponent

theorem sum_terms (ps : List (Poly f)) : sum (ps.map Poly.terms) = .ok (Poly.sum ps).terms := by
  rw [sum, ← List.flatMap_def]
  exact build_eq _

theorem foldlM_mul_terms (p : Poly f) (ps : List (Poly f)) :
    (ps.map Poly.terms).foldlM mul p.terms = bareProduct (ps.foldlM Poly.mul p) := by
  induction ps generalizing p with
  | nil => rfl
  | cons q rest ih =>
    rw [List.map_cons, List.foldlM_cons, List.foldlM_cons, mul_terms]
    exact bareProduct_bind ih

theorem product_terms (ps : List (Poly f)) :
    product (ps.map Poly.terms) = bareProduct (Poly.product ps) := by
  rw [product, constant_terms]
  exact foldlM_mul_terms 1 ps

end CheckedTerms

end FloatPolynomial
