import Mathlib.Algebra.Polynomial.Eval.Algebra
import FloatPolynomial.Proofs.IntegerPolynomials

/-!
# Majorants

The sum of the absolute values of the terms at a radius, for lists of integer terms and for integer
polynomials.  It bounds every value and every partial sum of the values of the terms at arguments
within the radius, and at radius one it is the sum of the absolute values of the coefficients.

The majorant of a sum is at most the sum, and that of a product at most the product of the majorants.
Bringing a list into canonical form does not increase it, because the canonical list has one term for
each power.
-/

namespace FloatPolynomial

open scoped Polynomial

noncomputable section

variable {f : Format} {radius : ℕ} {P Q : ℤ[X]}

/-- The sum of the absolute values of the monomials at a radius. -/
def polynomialMajorant (radius : ℕ) (P : ℤ[X]) : ℕ :=
  P.sum fun n c ↦ c.natAbs * radius ^ n

theorem polynomialMajorant_eq_sum {support : Finset ℕ} (h : P.support ⊆ support) :
    polynomialMajorant radius P = ∑ n ∈ support, (P.coeff n).natAbs * radius ^ n := by
  apply Polynomial.sum_eq_of_subset _ _ h
  intro n
  rw [Int.natAbs_zero, Nat.zero_mul]

@[simp]
theorem polynomialMajorant_zero : polynomialMajorant radius 0 = 0 :=
  Polynomial.sum_zero_index _

@[simp]
theorem polynomialMajorant_monomial (n : ℕ) (c : ℤ) :
    polynomialMajorant radius (Polynomial.monomial n c) = c.natAbs * radius ^ n := by
  apply Polynomial.sum_monomial_index
  rw [Int.natAbs_zero, Nat.zero_mul]

theorem polynomialMajorant_add_le :
    polynomialMajorant radius (P + Q) ≤
      polynomialMajorant radius P + polynomialMajorant radius Q := by
  rw [polynomialMajorant_eq_sum Polynomial.support_add,
    polynomialMajorant_eq_sum Finset.subset_union_left,
    polynomialMajorant_eq_sum Finset.subset_union_right, ← Finset.sum_add_distrib]
  apply Finset.sum_le_sum
  intro n _
  rw [Polynomial.coeff_add, ← Nat.add_mul]
  exact Nat.mul_le_mul_right _ (Int.natAbs_add_le _ _)

theorem polynomialMajorant_sum_le (indices : Finset ℕ) (summand : ℕ → ℤ[X]) :
    polynomialMajorant radius (∑ i ∈ indices, summand i) ≤
      ∑ i ∈ indices, polynomialMajorant radius (summand i) :=
  Finset.le_sum_of_subadditive _ (Nat.le_of_eq polynomialMajorant_zero)
    (fun _ _ ↦ polynomialMajorant_add_le) indices summand

theorem polynomialMajorant_mul_le :
    polynomialMajorant radius (P * Q) ≤
      polynomialMajorant radius P * polynomialMajorant radius Q := by
  calc
    polynomialMajorant radius (P * Q)
      ≤ ∑ i ∈ P.support, ∑ j ∈ Q.support,
          polynomialMajorant radius (Polynomial.monomial (i + j) (P.coeff i * Q.coeff j)) := by
        rw [Polynomial.mul_eq_sum_sum]
        refine (polynomialMajorant_sum_le ..).trans (Finset.sum_le_sum fun i _ ↦ ?_)
        exact polynomialMajorant_sum_le ..
    _ = ∑ i ∈ P.support, ∑ j ∈ Q.support,
          (P.coeff i).natAbs * radius ^ i * ((Q.coeff j).natAbs * radius ^ j) := by
        refine Finset.sum_congr rfl fun i _ ↦ Finset.sum_congr rfl fun j _ ↦ ?_
        rw [polynomialMajorant_monomial, Int.natAbs_mul, pow_add, Nat.mul_mul_mul_comm]
    _ = polynomialMajorant radius P * polynomialMajorant radius Q :=
        (Finset.sum_mul_sum ..).symm

/-- A monomial at a power of its own adds its absolute value. -/
theorem polynomialMajorant_monomial_add {n : ℕ} (c : ℤ) (h : Q.coeff n = 0) :
    polynomialMajorant radius (Polynomial.monomial n c + Q) =
      c.natAbs * radius ^ n + polynomialMajorant radius Q := by
  have hsupport : (Polynomial.monomial n c + Q).support ⊆ insert n Q.support := by
    refine Polynomial.support_add.trans (Finset.union_subset ?_ (Finset.subset_insert ..))
    exact (Polynomial.support_monomial_subset n c).trans (by simp)
  have hnot : n ∉ Q.support := Polynomial.notMem_support_iff.mpr h
  rw [polynomialMajorant_eq_sum hsupport, Finset.sum_insert hnot,
    polynomialMajorant_eq_sum (Finset.Subset.refl Q.support)]
  congr 1
  · rw [Polynomial.coeff_add, Polynomial.coeff_monomial_same, h, add_zero]
  · refine Finset.sum_congr rfl fun m hm ↦ ?_
    have hne : n ≠ m := fun heq ↦ hnot (heq ▸ hm)
    rw [Polynomial.coeff_add, Polynomial.coeff_monomial_of_ne _ hne.symm, zero_add]

/-- The sum of the absolute values of integer terms at a radius. -/
def majorant (radius : ℕ) (terms : List (Term f)) : ℕ :=
  (terms.map fun t ↦ t.coefficient.toInt.natAbs * radius ^ t.power.toNat).sum

@[simp]
theorem majorant_nil : majorant radius ([] : List (Term f)) = 0 := rfl

@[simp]
theorem majorant_cons (t : Term f) (terms : List (Term f)) :
    majorant radius (t :: terms) =
      t.coefficient.toInt.natAbs * radius ^ t.power.toNat + majorant radius terms := by
  rw [majorant, List.map_cons, List.sum_cons, majorant]

theorem majorant_perm {xs ys : List (Term f)} (h : xs.Perm ys) :
    majorant radius xs = majorant radius ys :=
  (h.map _).sum_eq

theorem weight_le_majorant (hpos : 0 < radius) (terms : List (Term f)) :
    weight terms ≤ majorant radius terms := by
  induction terms with
  | nil => exact Nat.le_refl 0
  | cons t rest ih =>
    rw [weight_cons, majorant_cons]
    exact Nat.add_le_add (Nat.le_mul_of_pos_right _ (Nat.pow_pos hpos)) ih

theorem eval_toPolynomial (a : ℤ) (terms : List (Term f)) :
    (toPolynomial terms).eval a =
      (terms.map fun t ↦ t.coefficient.toInt * a ^ t.power.toNat).sum := by
  induction terms with
  | nil => exact Polynomial.eval_zero
  | cons t rest ih =>
    rw [toPolynomial_cons, Polynomial.eval_add, Polynomial.eval_monomial, ih, List.map_cons,
      List.sum_cons]

/-- The absolute value of a term at an argument within the radius. -/
theorem natAbs_mul_pow_le {a : ℤ} (ha : a.natAbs ≤ radius) (c : ℤ) (n : ℕ) :
    (c * a ^ n).natAbs ≤ c.natAbs * radius ^ n := by
  rw [Int.natAbs_mul, Int.natAbs_pow]
  exact Nat.mul_le_mul_left _ (Nat.pow_le_pow_left ha n)

theorem natAbs_eval_le {a : ℤ} (ha : a.natAbs ≤ radius) (terms : List (Term f)) :
    ((toPolynomial terms).eval a).natAbs ≤ majorant radius terms := by
  induction terms with
  | nil => simp
  | cons t rest ih =>
    rw [toPolynomial_cons, Polynomial.eval_add, Polynomial.eval_monomial, majorant_cons]
    exact (Int.natAbs_add_le ..).trans (Nat.add_le_add (natAbs_mul_pow_le ha ..) ih)

theorem polynomialMajorant_toPolynomial_le (terms : List (Term f)) :
    polynomialMajorant radius (toPolynomial terms) ≤ majorant radius terms := by
  induction terms with
  | nil => exact Nat.le_of_eq polynomialMajorant_zero
  | cons t rest ih =>
    rw [toPolynomial_cons, majorant_cons]
    refine polynomialMajorant_add_le.trans ?_
    rw [polynomialMajorant_monomial]
    exact Nat.add_le_add_left ih _

/-- With one term for each power nothing is merged. -/
theorem polynomialMajorant_toPolynomial {terms : List (Term f)}
    (h : terms.Pairwise fun s t ↦ t.power < s.power) :
    polynomialMajorant radius (toPolynomial terms) = majorant radius terms := by
  induction terms with
  | nil => exact polynomialMajorant_zero
  | cons t rest ih =>
    obtain ⟨hhead, hrest⟩ := List.pairwise_cons.mp h
    have habsent : (toPolynomial rest).coeff t.power.toNat = 0 := by
      rw [coeff_toPolynomial, coefficientsAt_eq_nil]
      · rfl
      · intro s hs heq
        exact UInt32.lt_irrefl _ (heq ▸ hhead s hs)
    rw [toPolynomial_cons, majorant_cons, polynomialMajorant_monomial_add _ habsent, ih hrest]

namespace Poly

variable {p q r : Poly f} {bound : ℕ}

theorem majorant_add_le
    (h : Denotes (p + q).terms (toPolynomial p.terms + toPolynomial q.terms) bound) :
    majorant radius (p + q).terms ≤ majorant radius p.terms + majorant radius q.terms := by
  rw [← polynomialMajorant_toPolynomial (p + q).canonical.descending, h.polynomial]
  refine polynomialMajorant_add_le.trans (Nat.add_le_add ?_ ?_)
  · exact polynomialMajorant_toPolynomial_le p.terms
  · exact polynomialMajorant_toPolynomial_le q.terms

theorem majorant_mul_le
    (h : Denotes r.terms (toPolynomial p.terms * toPolynomial q.terms) bound) :
    majorant radius r.terms ≤ majorant radius p.terms * majorant radius q.terms := by
  rw [← polynomialMajorant_toPolynomial r.canonical.descending, h.polynomial]
  refine polynomialMajorant_mul_le.trans (Nat.mul_le_mul ?_ ?_)
  · exact polynomialMajorant_toPolynomial_le p.terms
  · exact polynomialMajorant_toPolynomial_le q.terms

end Poly

end

end FloatPolynomial
