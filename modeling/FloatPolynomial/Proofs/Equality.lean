import Mathlib.Data.List.Forall2
import FloatPolynomial.Proofs.Binary.Integers
import FloatPolynomial.Proofs.Coefficients

/-!
# Numerical Equality

Numerical equality identifies the two zeros and does not hold of a non-number.  A polynomial has no
zero among its terms, so two polynomials are numerically equal exactly if they are the same and have
no non-number.  The same holds of two polynomials whose coefficients are numerically equal at every
power, although a coefficient that is absent reads as a zero there: `equal_iff` and
`equal_coefficient_iff` state one condition for both.
-/

namespace FloatPolynomial

variable {f : Format}

namespace Binary

variable {x y : Binary f}

/-- Away from zero, numerical equality is equality of numbers. -/
theorem equal_iff_of_isZero_eq_false (h : x.isZero = false) :
    x.equal y = true ↔ x = y ∧ x ≠ nan := by
  rcases x with _ | a | ⟨a, m, hm⟩ <;> rcases y with _ | b | ⟨b, n, hn⟩
  case infinite.infinite => simp [equal]
  case finite.finite =>
    have hne : signedUnits a m ≠ 0 := by
      rw [Ne, signedUnits_eq_zero]
      exact ne_of_beq_false h
    rw [equal, beq_iff_eq, finite.injEq]
    constructor
    · intro hsigned
      exact ⟨signedUnits_inj hsigned hne, by simp⟩
    · rintro ⟨⟨rfl, rfl⟩, -⟩
      rfl
  all_goals simp [equal]

/-- Numerically equal numbers are zero together. -/
theorem isZero_eq_of_equal (h : x.equal y = true) : x.isZero = y.isZero := by
  rcases x with _ | a | ⟨a, m, hm⟩ <;> rcases y with _ | b | ⟨b, n, hn⟩
  case infinite.infinite => rfl
  case finite.finite =>
    have hsigned : signedUnits a m = signedUnits b n := eq_of_beq h
    have hunits : m = 0 ↔ n = 0 := by
      rw [← @signedUnits_eq_zero a, hsigned, signedUnits_eq_zero]
    rw [isZero, isZero, Bool.eq_iff_iff, beq_iff_eq, beq_iff_eq, hunits]
  all_goals cases h

theorem equal_of_isZero (hx : x.isZero = true) (hy : y.isZero = true) : x.equal y = true := by
  obtain ⟨a, rfl⟩ := eq_finite_of_isZero hx
  obtain ⟨b, rfl⟩ := eq_finite_of_isZero hy
  rw [equal, signedUnits_zero, signedUnits_zero]
  rfl

theorem equal_self_iff : x.equal x = true ↔ x ≠ nan := by
  rcases x with _ | a | ⟨a, m, hm⟩ <;> simp [equal]

end Binary

theorem Term.equal_iff_of_isZero_eq_false {s t : Term f} (h : s.isZero = false) :
    s.equal t = true ↔ s = t ∧ s.coefficient ≠ .nan := by
  rw [isZero_eq] at h
  rw [equal, Bool.and_eq_true, Binary.equal_iff_of_isZero_eq_false h, beq_iff_eq, Term.mk.injEq]
  tauto

/-- Lists without zeros are numerically equal, term by term, if they are the same list of numbers. -/
theorem forall₂_equal_iff {xs ys : List (Term f)} (h : ∀ t ∈ xs, t.isZero = false) :
    List.Forall₂ (fun s t ↦ s.equal t = true) xs ys ↔
      xs = ys ∧ ∀ t ∈ xs, t.coefficient ≠ .nan := by
  induction xs generalizing ys with
  | nil =>
    rw [List.forall₂_nil_left_iff, eq_comm]
    exact (and_iff_left (List.forall_mem_nil _)).symm
  | cons s xs ih =>
    obtain ⟨hs, hxs⟩ := List.forall_mem_cons.mp h
    cases ys with
    | nil => simp
    | cons t ys =>
      rw [List.forall₂_cons, Term.equal_iff_of_isZero_eq_false hs, ih hxs, List.cons.injEq,
        List.forall_mem_cons]
      exact and_and_and_comm

namespace Poly

variable {p q : Poly f}

/-- No coefficient is a non-number. -/
def IsNumerical (p : Poly f) : Prop :=
  ∀ t ∈ p.terms, t.coefficient ≠ .nan

/-- Polynomials are numerically equal if they are the same polynomial of numbers. -/
theorem equal_iff : p.equal q = true ↔ p = q ∧ p.IsNumerical := by
  calc
    p.equal q = true ↔ List.Forall₂ (fun s t ↦ s.equal t = true) p.terms q.terms := by
      rw [List.forall₂_iff_zip, equal, Bool.and_eq_true, beq_iff_eq, List.all_eq_true, Prod.forall]
    _ ↔ p.terms = q.terms ∧ p.IsNumerical := forall₂_equal_iff p.canonical.nonzero
    _ ↔ p = q ∧ p.IsNumerical := by rw [← Poly.ext_iff]

theorem isNumerical_iff_coefficient : p.IsNumerical ↔ ∀ power, p.coefficient power ≠ .nan := by
  constructor
  · intro h power hnan
    exact h ⟨.nan, power⟩ (mem_terms_iff.mpr ⟨hnan, rfl⟩) rfl
  · intro h t ht
    rw [← coefficient_of_mem ht]
    exact h t.power

/-- Polynomials have numerically equal coefficients if they are the same polynomial of numbers. -/
theorem equal_coefficient_iff :
    (∀ power, (p.coefficient power).equal (q.coefficient power) = true) ↔
      p = q ∧ p.IsNumerical := by
  rw [isNumerical_iff_coefficient]
  constructor
  · intro h
    have hsame (power : UInt32) : p.coefficient power = q.coefficient power := by
      cases hzero : (p.coefficient power).isZero with
      | true =>
        have hother := (Binary.isZero_eq_of_equal (h power)).symm.trans hzero
        rw [p.noNegativeZero_coefficient power hzero, q.noNegativeZero_coefficient power hother]
      | false => exact ((Binary.equal_iff_of_isZero_eq_false hzero).mp (h power)).1
    refine ⟨ext_coefficient hsame, fun power ↦ ?_⟩
    have hequal := h power
    rw [← hsame power] at hequal
    exact Binary.equal_self_iff.mp hequal
  · rintro ⟨rfl, h⟩ power
    exact Binary.equal_self_iff.mpr (h power)

/-- Polynomials are numerically equal exactly if their coefficients at every power are.  A polynomial
is equal to itself exactly if none of its coefficients is a non-number, and then those whose
coefficients equal its own at every power are the ones with its list of terms. -/
theorem equal_coefficientwise (p q : Poly f) :
    (p.equal q = true ↔ ∀ power, (p.coefficient power).equal (q.coefficient power) = true) ∧
    (p.equal p = true ↔ ∀ t ∈ p.terms, t.coefficient ≠ .nan) ∧
    ((∀ t ∈ p.terms, t.coefficient ≠ .nan) →
      ((∀ power, (p.coefficient power).equal (q.coefficient power) = true) ↔
        p.terms = q.terms)) := by
  refine ⟨?_, ?_, fun hnumerical ↦ ?_⟩
  · rw [equal_iff, equal_coefficient_iff]
  · rw [equal_iff]
    exact and_iff_right rfl
  · rw [equal_coefficient_iff, Poly.ext_iff]
    exact and_iff_left hnumerical

/-- A list that is brought into the canonical form of another one by dropping a zero of each sign. -/
theorem equal_coefficientwise_rebuilt :
    ∃ p q : Poly .single, p.terms = [⟨1, 2⟩, ⟨-1, 0⟩] ∧
      q = ofTerms [⟨-0, 7⟩, ⟨1, 2⟩, ⟨0, 1⟩, ⟨-1, 0⟩] ∧
      (∀ power, (p.coefficient power).equal (q.coefficient power) = true) ∧ p.terms = q.terms := by
  let p : Poly .single := ⟨[⟨1, 2⟩, ⟨-1, 0⟩], by decide +kernel, by decide +kernel⟩
  let q : Poly .single := ofTerms [⟨-0, 7⟩, ⟨1, 2⟩, ⟨0, 1⟩, ⟨-1, 0⟩]
  have hnumerical : ∀ t ∈ p.terms, t.coefficient ≠ .nan := by decide +kernel
  have hrebuilt : q.terms = p.terms := by
    rw [terms_ofTerms, canonicalize_of_descending (by decide)]
    decide +kernel
  have hequal : p.equal q = true := by
    rw [equal, hrebuilt]
    decide +kernel
  obtain ⟨hcoefficients, -, hterms⟩ := equal_coefficientwise p q
  have hsame := hcoefficients.mp hequal
  exact ⟨p, q, rfl, rfl, hsame, (hterms hnumerical).mp hsame⟩

end Poly

end FloatPolynomial
