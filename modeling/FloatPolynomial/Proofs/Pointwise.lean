import FloatPolynomial.Proofs.Accumulation
import FloatPolynomial.Proofs.Binary.Differences
import FloatPolynomial.Proofs.Schoolbook

/-!
# Sums and Differences, Coefficient by Coefficient

A sum is built by sorting and merging the terms of both addends, and a difference by negating the
subtrahend first.  At each power this is one rounded sum or difference of what the two polynomials
have there, with the positive zero where they have nothing.

The laws of rounded arithmetic that hold for single numbers therefore hold for polynomials.  Those
that fail for numbers because of a zero hold here, since no coefficient is the negative zero.
-/

namespace FloatPolynomial

namespace Poly

variable {f : Format}

@[simp]
theorem coefficient_zero (power : UInt32) : (0 : Poly f).coefficient power = 0 := by
  rw [← sumAt_terms, terms_zero]
  rfl

theorem coefficient_add (p q : Poly f) (power : UInt32) :
    (p + q).coefficient power = p.coefficient power + q.coefficient power := by
  rw [add_def, coefficient_ofTerms, sumAt_append, sumAt_terms, q.coefficientsAt_terms, termOf_eq]
  cases hq : (q.coefficient power).isZero with
  | true => exact (Binary.add_of_isZero (p.noNegativeZero_coefficient power) hq).symm
  | false => rfl

theorem coefficientsAt_map_neg (power : UInt32) (terms : List (Term f)) :
    coefficientsAt power (terms.map fun t ↦ -t) =
      (coefficientsAt power terms).map fun c ↦ -c := by
  rw [coefficientsAt, coefficientsAt, List.filter_map, List.map_map, List.map_map]
  rfl

theorem coefficient_neg (p : Poly f) (power : UInt32) :
    (-p).coefficient power = 0 - p.coefficient power := by
  rw [← sumAt_terms, terms_neg, sumAt, coefficientsAt_map_neg, p.coefficientsAt_terms, termOf_eq,
    Binary.sub_eq_add_neg]
  cases hp : (p.coefficient power).isZero with
  | true =>
    have hneg : (-p.coefficient power).isZero = true := by rw [Binary.isZero_neg, hp]
    exact (Binary.add_of_isZero Binary.noNegativeZero_zero hneg).symm
  | false => rfl

theorem coefficient_sub (p q : Poly f) (power : UInt32) :
    (p - q).coefficient power = p.coefficient power - q.coefficient power := by
  rw [sub_def, coefficient_add, coefficient_neg,
    Binary.add_zero_sub (p.noNegativeZero_coefficient power)]

protected theorem add_comm (p q : Poly f) : p + q = q + p := by
  apply ext_coefficient
  intro power
  rw [coefficient_add, coefficient_add, Binary.add_comm]

protected theorem add_zero (p : Poly f) : p + 0 = p := by
  rw [add_def, terms_zero, List.append_nil, ofTerms_terms]

protected theorem zero_add (p : Poly f) : 0 + p = p := by
  rw [Poly.add_comm, Poly.add_zero]

protected theorem neg_neg (p : Poly f) : - -p = p := by
  have hneg (t : Term f) : - -t = t := congrArg (Term.mk · t.power) (Binary.neg_neg t.coefficient)
  apply Poly.ext
  calc
    (- -p).terms = p.terms.map fun t ↦ - -t := by rw [terms_neg, terms_neg, List.map_map]; rfl
    _ = p.terms := List.map_id'' hneg p.terms

@[simp]
theorem powers_neg (p : Poly f) : (-p).powers = p.powers := by
  rw [powers, powers, terms_neg, List.map_map]
  rfl

protected theorem neg_add (p q : Poly f) : -(p + q) = -p + -q := by
  apply ext_coefficient
  intro power
  rw [coefficient_neg, coefficient_add, coefficient_add, coefficient_neg, coefficient_neg,
    Binary.zero_sub_add]

protected theorem neg_sub (p q : Poly f) : -(q - p) = p - q := by
  calc
    -(q - p) = -q + - -p := by rw [sub_def, Poly.neg_add]
    _ = -q + p := by rw [Poly.neg_neg]
    _ = p - q := by rw [Poly.add_comm, sub_def]

/-- What is left of a polynomial less itself: a non-number at each power whose coefficient is not
finite. -/
def notFinitePart (p : Poly f) : List (Term f) :=
  (p.terms.filter fun t ↦ !t.coefficient.isFinite).map fun t ↦ ⟨.nan, t.power⟩

theorem mem_notFinitePart {p : Poly f} {t : Term f} :
    t ∈ p.notFinitePart ↔ t.coefficient = .nan ∧ (p.coefficient t.power).isFinite = false := by
  simp only [notFinitePart, List.mem_map, List.mem_filter, Bool.not_eq_true']
  constructor
  · rintro ⟨s, ⟨hs, hfinite⟩, rfl⟩
    exact ⟨rfl, by rw [coefficient_of_mem hs, hfinite]⟩
  · rintro ⟨hnan, hfinite⟩
    have hnonzero : (p.coefficient t.power).isZero = false := by
      cases hc : p.coefficient t.power with
      | nan => rfl
      | infinite negative => rfl
      | finite negative units hunits => rw [hc] at hfinite; cases hfinite
    refine ⟨⟨p.coefficient t.power, t.power⟩, ⟨mem_terms_iff.mpr ⟨rfl, hnonzero⟩, hfinite⟩, ?_⟩
    rw [← hnan]

theorem canonical_notFinitePart (p : Poly f) : Canonical p.notFinitePart where
  descending := List.pairwise_map.mpr (p.canonical.descending.filter _)
  nonzero t ht := by
    rw [Term.isZero_eq, (mem_notFinitePart.mp ht).1]
    rfl

theorem terms_sub_self (p : Poly f) : (p - p).terms = p.notFinitePart := by
  apply (p - p).canonical.eq_of_mem_iff p.canonical_notFinitePart
  intro t
  rw [mem_terms_iff, mem_notFinitePart, coefficient_sub, Binary.sub_self_eq_ite]
  cases hfinite : (p.coefficient t.power).isFinite with
  | true =>
    apply iff_of_false
    · rintro ⟨hzero, hnonzero⟩
      rw [if_pos rfl] at hzero
      rw [Term.isZero_eq, ← hzero, Binary.isZero_zero] at hnonzero
      cases hnonzero
    · rintro ⟨-, h⟩
      cases h
  | false =>
    rw [if_neg Bool.false_ne_true, and_iff_left rfl, eq_comm]
    apply and_iff_left_of_imp
    intro hnan
    rw [Term.isZero_eq, hnan]
    rfl

theorem sub_self_eq_zero_iff {p : Poly f} :
    p - p = 0 ↔ ∀ t ∈ p.terms, t.coefficient.isFinite = true := by
  calc
    p - p = 0 ↔ p.notFinitePart = [] := by
      rw [← terms_sub_self]
      exact ⟨congrArg terms, fun h ↦ Poly.ext h⟩
    _ ↔ ∀ t ∈ p.terms, t.coefficient.isFinite = true := by
      rw [notFinitePart, List.map_eq_nil_iff, List.filter_eq_nil_iff]
      simp only [Bool.not_eq_true', Bool.not_eq_false]

/-- Sums and differences are those of the coefficients at each power.  Hence they are commutative,
zero is neutral, negation is its own inverse and passes through a sum, and a difference changes its
sign with the order of its sides.  A polynomial less itself is zero exactly if all its coefficients
are finite, and else it has a non-number at each power where one is not. -/
theorem add_sub_pointwise (p q : Poly f) :
    (∀ power, (p + q).coefficient power = p.coefficient power + q.coefficient power) ∧
    (∀ power, (p - q).coefficient power = p.coefficient power - q.coefficient power) ∧
    p + q = q + p ∧ p + 0 = p ∧ 0 + p = p ∧
    - -p = p ∧ (-p).powers = p.powers ∧
    p - q = p + -q ∧ p - q = -(q - p) ∧ -(p + q) = -p + -q ∧
    (p - p = 0 ↔ ∀ t ∈ p.terms, t.coefficient.isFinite = true) ∧
    (p - p).terms =
      (p.terms.filter fun t ↦ !t.coefficient.isFinite).map fun t ↦ ⟨.nan, t.power⟩ :=
  ⟨coefficient_add p q, coefficient_sub p q, Poly.add_comm p q, Poly.add_zero p, Poly.zero_add p,
    Poly.neg_neg p, powers_neg p, sub_def p q, (Poly.neg_sub p q).symm, Poly.neg_add p q,
    sub_self_eq_zero_iff, terms_sub_self p⟩

end Poly

end FloatPolynomial
