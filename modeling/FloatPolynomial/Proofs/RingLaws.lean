import Mathlib.Tactic.Ring
import FloatPolynomial.Proofs.IntegerPolynomials
import FloatPolynomial.Proofs.Overflow

/-!
# Ring Laws Without Rounding

Rounded arithmetic keeps few laws of a ring.  Between integer polynomials whose coefficients are
small enough nothing is rounded: sums, differences and products represent those of the integer
polynomials, and because each of these is represented once, the laws of the ring of integer
polynomials hold for the lists of terms themselves.  The two sides of a law may add the same
products in different orders; they only agree because every sum on the way is exact.
-/

namespace FloatPolynomial

namespace Poly

open scoped Polynomial

variable {f : Format} {p q r : Poly f} {P Q R : ℤ[X]} {a b c : ℕ}

theorem eq_of_denotes (hp : Denotes p.terms P a) (hq : Denotes q.terms P b) : p = q :=
  (represents_of_denotes hp).unique (represents_of_denotes hq)

theorem toNat_degree_add_le (p q : Poly f) :
    (p + q).degree.toNat ≤ max p.degree.toNat q.degree.toNat := by
  apply toNat_degree_ofTerms_le
  intro t ht
  rcases List.mem_append.mp ht with hleft | hright
  · exact (toNat_power_le_degree hleft).trans (Nat.le_max_left ..)
  · exact (toNat_power_le_degree hright).trans (Nat.le_max_right ..)

/-- A product that is small enough succeeds and is exact. -/
theorem exists_denotes_mul (hp : Denotes p.terms P a) (hq : Denotes q.terms Q b)
    (hbound : a * b ≤ 2 ^ f.precision) (hdegree : p.degree.toNat + q.degree.toNat < UInt32.size) :
    ∃ pq, p.mul q = .ok pq ∧ Denotes pq.terms (P * Q) (a * b) := by
  obtain ⟨pq, hmul⟩ := exists_mul_of_degree_lt hdegree
  exact ⟨pq, hmul, denotes_mul hp hq hbound hmul⟩

section Laws

variable (hp : Denotes p.terms P a) (hq : Denotes q.terms Q b) (hr : Denotes r.terms R c)

include hp hq

theorem add_comm_of_denotes (hbound : a + b ≤ 2 ^ f.precision) : p + q = q + p := by
  have hleft := denotes_add hp hq hbound
  rw [add_comm P Q] at hleft
  rw [add_comm] at hbound
  exact eq_of_denotes hleft (denotes_add hq hp hbound)

theorem mul_comm_of_denotes (hbound : a * b ≤ 2 ^ f.precision)
    (hdegree : p.degree.toNat + q.degree.toNat < UInt32.size) :
    ∃ pq, p.mul q = .ok pq ∧ q.mul p = .ok pq := by
  obtain ⟨pq, hmul, hleft⟩ := exists_denotes_mul hp hq hbound hdegree
  rw [mul_comm] at hbound
  rw [Nat.add_comm] at hdegree
  obtain ⟨qp, hmul', hright⟩ := exists_denotes_mul hq hp hbound hdegree
  rw [mul_comm Q P] at hright
  exact ⟨pq, hmul, by rw [hmul', eq_of_denotes hleft hright]⟩

include hr

theorem add_assoc_of_denotes (hbound : a + b + c ≤ 2 ^ f.precision) :
    p + q + r = p + (q + r) := by
  have hpq := denotes_add hp hq (by omega)
  have hqr := denotes_add hq hr (by omega)
  have hleft := denotes_add hpq hr hbound
  have hright := denotes_add hp hqr (by omega)
  rw [← add_assoc P Q R] at hright
  exact eq_of_denotes hleft hright

theorem mul_assoc_of_denotes (hpq : a * b ≤ 2 ^ f.precision) (hqr : b * c ≤ 2 ^ f.precision)
    (hbound : a * b * c ≤ 2 ^ f.precision)
    (hdegree : p.degree.toNat + q.degree.toNat + r.degree.toNat < UInt32.size) :
    ∃ pq qr pqr, p.mul q = .ok pq ∧ q.mul r = .ok qr ∧
      pq.mul r = .ok pqr ∧ p.mul qr = .ok pqr := by
  obtain ⟨pq, hmulLeft, hpq⟩ := exists_denotes_mul hp hq hpq (by omega)
  obtain ⟨qr, hmulRight, hqr⟩ := exists_denotes_mul hq hr hqr (by omega)
  have hdegreeLeft := toNat_degree_mul_le hmulLeft
  have hdegreeRight := toNat_degree_mul_le hmulRight
  obtain ⟨left, hmul, hleft⟩ := exists_denotes_mul hpq hr hbound (by omega)
  rw [mul_assoc] at hbound
  obtain ⟨right, hmul', hright⟩ := exists_denotes_mul hp hqr hbound (by omega)
  rw [← mul_assoc P Q R] at hright
  exact ⟨pq, qr, left, hmulLeft, hmulRight, hmul, by rw [hmul', eq_of_denotes hleft hright]⟩

theorem mul_add_of_denotes (hqr : b + c ≤ 2 ^ f.precision)
    (hbound : a * b + a * c ≤ 2 ^ f.precision)
    (hdegree : p.degree.toNat + q.degree.toNat + r.degree.toNat < UInt32.size) :
    ∃ pq pr, p.mul q = .ok pq ∧ p.mul r = .ok pr ∧ p.mul (q + r) = .ok (pq + pr) := by
  obtain ⟨pq, hmulLeft, hpq⟩ := exists_denotes_mul hp hq (by omega) (by omega)
  obtain ⟨pr, hmulRight, hpr⟩ := exists_denotes_mul hp hr (by omega) (by omega)
  have hdegreeSum := toNat_degree_add_le q r
  have hsum := denotes_add hpq hpr hbound
  rw [← mul_add] at hbound hsum
  obtain ⟨product, hmul, hproduct⟩ :=
    exists_denotes_mul hp (denotes_add hq hr hqr) hbound (by omega)
  exact ⟨pq, pr, hmulLeft, hmulRight, by rw [hmul, eq_of_denotes hproduct hsum]⟩

end Laws

/-- A bound on the product of three weights bounds everything that the laws form. -/
theorem bounds_of_mul_le {bound : ℕ} (h : (a + 1) * (b + 1) * (c + 1) ≤ bound) :
    a + b + c ≤ bound ∧ a * b ≤ bound ∧ b * c ≤ bound ∧ a * b * c ≤ bound ∧
      a * b + a * c ≤ bound := by
  have hexpand : (a + 1) * (b + 1) * (c + 1) =
      a * b * c + a * b + a * c + b * c + a + b + c + 1 := by ring
  have := Nat.zero_le (a * b * c)
  omega

/-- As long as the absolute values add up to at most `2 ^ f.precision`, nothing is rounded: terms add
up to the integer sums, whatever their order; sums, differences and products represent those of the
integer polynomials; and the laws of a ring hold for the polynomials themselves.  The powers of a
product have to fit, or it is refused. -/
theorem integer_ring_laws :
    (∀ terms : List (Term f), IntegerTerms terms → weight terms ≤ 2 ^ f.precision →
      (ofTerms terms).Represents (toPolynomial terms) ∧
      ∀ others, others.Perm terms → ofTerms others = ofTerms terms) ∧
    (∀ p q : Poly f, IntegerTerms p.terms → IntegerTerms q.terms →
      (weight p.terms + weight q.terms ≤ 2 ^ f.precision →
        (p + q).Represents (toPolynomial p.terms + toPolynomial q.terms) ∧
        (p - q).Represents (toPolynomial p.terms - toPolynomial q.terms)) ∧
      (weight p.terms * weight q.terms ≤ 2 ^ f.precision →
        p.degree.toNat + q.degree.toNat < UInt32.size →
        ∃ pq, p.mul q = .ok pq ∧
          pq.Represents (toPolynomial p.terms * toPolynomial q.terms))) ∧
    ∀ p q r : Poly f, IntegerTerms p.terms → IntegerTerms q.terms → IntegerTerms r.terms →
      (weight p.terms + 1) * (weight q.terms + 1) * (weight r.terms + 1) ≤ 2 ^ f.precision →
      p.degree.toNat + q.degree.toNat + r.degree.toNat < UInt32.size →
      p + q = q + p ∧ p + q + r = p + (q + r) ∧
      (∃ pq, p.mul q = .ok pq ∧ q.mul p = .ok pq) ∧
      (∃ pq qr pqr, p.mul q = .ok pq ∧ q.mul r = .ok qr ∧
        pq.mul r = .ok pqr ∧ p.mul qr = .ok pqr) ∧
      ∃ pq pr, p.mul q = .ok pq ∧ p.mul r = .ok pr ∧ p.mul (q + r) = .ok (pq + pr) := by
  refine ⟨?_, ?_, ?_⟩
  · intro terms hterms hweight
    have hdenotes := denotes_self hterms
    refine ⟨represents_of_denotes (denotes_ofTerms hdenotes hweight), fun others hperm ↦ ?_⟩
    exact eq_of_denotes (denotes_ofTerms (hdenotes.perm hperm) hweight)
      (denotes_ofTerms hdenotes hweight)
  · intro p q hp hq
    have hp := denotes_self hp
    have hq := denotes_self hq
    refine ⟨fun hbound ↦ ⟨represents_of_denotes (denotes_add hp hq hbound),
      represents_of_denotes (denotes_sub hp hq hbound)⟩, fun hbound hdegree ↦ ?_⟩
    obtain ⟨pq, hmul, hproduct⟩ := exists_denotes_mul hp hq hbound hdegree
    exact ⟨pq, hmul, represents_of_denotes hproduct⟩
  · intro p q r hp hq hr hweight hdegree
    have hp := denotes_self hp
    have hq := denotes_self hq
    have hr := denotes_self hr
    obtain ⟨hsum, hpq, hqr, hproduct, hdistributed⟩ := bounds_of_mul_le hweight
    exact ⟨add_comm_of_denotes hp hq (by omega), add_assoc_of_denotes hp hq hr hsum,
      mul_comm_of_denotes hp hq hpq (by omega),
      mul_assoc_of_denotes hp hq hr hpq hqr hproduct hdegree,
      mul_add_of_denotes hp hq hr (by omega) hdistributed hdegree⟩

/-- The laws for `x + 1`, `x - 1` and `x`. -/
theorem integer_ring_laws_linear :
    ∃ p q r : Poly .single, p.terms = [⟨1, 1⟩, ⟨1, 0⟩] ∧ q.terms = [⟨1, 1⟩, ⟨-1, 0⟩] ∧
      r.terms = [⟨1, 1⟩] ∧
      (ofTerms [⟨1, 0⟩, ⟨1, 1⟩, ⟨-1, 0⟩] : Poly .single) = ofTerms [⟨-1, 0⟩, ⟨1, 0⟩, ⟨1, 1⟩] ∧
      (p + q).Represents (toPolynomial p.terms + toPolynomial q.terms) ∧
      ∃ pq pr, p.mul q = .ok pq ∧ p.mul r = .ok pr ∧ p.mul (q + r) = .ok (pq + pr) := by
  let p : Poly .single := ⟨[⟨1, 1⟩, ⟨1, 0⟩], by decide +kernel, by decide +kernel⟩
  let q : Poly .single := ⟨[⟨1, 1⟩, ⟨-1, 0⟩], by decide +kernel, by decide +kernel⟩
  let r : Poly .single := ⟨[⟨1, 1⟩], by decide +kernel, by decide +kernel⟩
  have hp : IntegerTerms p.terms := by
    unfold IntegerTerms
    decide +kernel
  have hq : IntegerTerms q.terms := by
    unfold IntegerTerms
    decide +kernel
  have hr : IntegerTerms r.terms := by
    unfold IntegerTerms
    decide +kernel
  have hlist : IntegerTerms ([⟨-1, 0⟩, ⟨1, 0⟩, ⟨1, 1⟩] : List (Term .single)) := by
    unfold IntegerTerms
    decide +kernel
  obtain ⟨hterms, hpairs, htriples⟩ := integer_ring_laws (f := .single)
  have hperm := (hterms _ hlist (by decide +kernel)).2 [⟨1, 0⟩, ⟨1, 1⟩, ⟨-1, 0⟩]
    (by decide +kernel)
  obtain ⟨hsum, -⟩ := (hpairs p q hp hq).1 (by decide +kernel)
  have hdistributive := (htriples p q r hp hq hr (by decide +kernel) (by decide +kernel)).2.2.2.2
  exact ⟨p, q, r, rfl, rfl, rfl, hperm, hsum, hdistributive⟩

end Poly

end FloatPolynomial
