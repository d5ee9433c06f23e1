import FloatPolynomial.Proofs.Powers
import FloatPolynomial.Proofs.RingLaws

/-!
# Powers Without Rounding

Powers of polynomials with integer coefficients.  As long as the power of the sum of the absolute
values is held by the format, every product of copies on the way is exact, also the squares that
repeated squaring forms ahead; so in whatever order the copies are multiplied, they represent the
power of the integer polynomial.  Hence a power is the product of so many copies, and the powers of
one polynomial multiply as their exponents add.
-/

namespace FloatPolynomial

namespace Poly

open scoped Polynomial

variable {f : Format} {p q r : Poly f} {P : ℤ[X]} {a n : ℕ}

/-- No lower power is greater than a bound that is not less than one. -/
theorem pow_le_of_pow_le {bound i : ℕ} (hle : i ≤ n) (h : a ^ n ≤ bound) (hbound : 0 < bound) :
    a ^ i ≤ bound := by
  rcases Nat.eq_zero_or_pos a with rfl | hpos
  · exact (zero_pow_le_one i).trans hbound
  · exact (Nat.pow_le_pow_right hpos hle).trans h

theorem denotes_one : Denotes (1 : Poly f).terms 1 1 where
  integers := by
    rw [terms_one, IntegerTerms, List.forall_mem_singleton]
    exact Binary.isInteger_one
  polynomial := by
    rw [terms_one, toPolynomial_cons, toPolynomial_nil, add_zero, Binary.toInt_one]
    exact Polynomial.monomial_zero_one
  weight_le := by
    rw [terms_one, weight_cons, weight_nil, Binary.toInt_one]
    exact Nat.le_refl 1

/-- Copies of an integer polynomial have an exact product, in whatever order. -/
theorem IsPower.denotes (h : IsPower p n q) (hp : Denotes p.terms P a)
    (hbound : a ^ n ≤ 2 ^ f.precision) : Denotes q.terms (P ^ n) (a ^ n) := by
  induction h with
  | one =>
    rw [pow_zero, pow_zero]
    exact denotes_one
  | self =>
    rw [pow_one, pow_one]
    exact hp
  | @mul i j q r product hq hr hmul ihq ihr =>
    have hpos : 0 < 2 ^ f.precision := Nat.two_pow_pos _
    have hqbound := pow_le_of_pow_le (Nat.le_add_right i j) hbound hpos
    have hrbound := pow_le_of_pow_le (Nat.le_add_left j i) hbound hpos
    rw [pow_add] at hbound
    rw [pow_add, pow_add]
    exact denotes_mul (ihq hqbound) (ihr hrbound) hbound hmul

theorem IsPower.unique (hq : IsPower p n q) (hr : IsPower p n r) (hp : IntegerTerms p.terms)
    (hbound : weight p.terms ^ n ≤ 2 ^ f.precision) : q = r :=
  eq_of_denotes (hq.denotes (denotes_self hp) hbound) (hr.denotes (denotes_self hp) hbound)

/-- As long as the sum of the absolute values to the power `n` is at most `2 ^ f.precision` and the
degree fits, repeated squaring represents the power of the integer polynomial, is the product of
`n` copies, and turns sums of exponents into products.  Whatever the coefficients, the first power
is the polynomial itself, and an even power is a power of the square, refused where that is. -/
theorem pow_exponents :
    (∀ (p : Poly f) (n : ℕ), IntegerTerms p.terms → weight p.terms ^ n ≤ 2 ^ f.precision →
      n * p.degree.toNat < UInt32.size →
      ∃ q, p.pow n = .ok q ∧ q.Represents (toPolynomial p.terms ^ n) ∧
        product (List.replicate n p) = .ok q) ∧
    (∀ (p : Poly f) (m n : ℕ), IntegerTerms p.terms →
      weight p.terms ^ (m + n) ≤ 2 ^ f.precision → (m + n) * p.degree.toNat < UInt32.size →
      ∃ q r s, p.pow m = .ok q ∧ p.pow n = .ok r ∧ p.pow (m + n) = .ok s ∧ q.mul r = .ok s) ∧
    (∀ p : Poly f, p.pow 1 = .ok p) ∧
    ∀ (p : Poly f) (n : ℕ), 0 < n → p.pow (2 * n) = (do (← p.mul p).pow n) := by
  refine ⟨?_, ?_, Poly.pow_one, fun p n ↦ pow_two_mul p⟩
  · intro p n hp hbound hdegree
    obtain ⟨q, hpow, hq⟩ := (outcome_pow p n).exists_eq_ok hdegree
    obtain ⟨r, hproduct, hr⟩ := (outcome_product_replicate p n).exists_eq_ok hdegree
    refine ⟨q, hpow, represents_of_denotes (hq.denotes (denotes_self hp) hbound), ?_⟩
    rw [hproduct, hr.unique hq hp hbound]
  · intro p m n hp hbound hdegree
    have hsplit := hdegree
    rw [Nat.add_mul] at hsplit
    obtain ⟨q, hpowLeft, hq⟩ := (outcome_pow p m).exists_eq_ok (by omega)
    obtain ⟨r, hpowRight, hr⟩ := (outcome_pow p n).exists_eq_ok (by omega)
    obtain ⟨s, hpow, hs⟩ := (outcome_pow p (m + n)).exists_eq_ok hdegree
    obtain ⟨t, hmul, ht⟩ := (hq.outcome_mul hr).exists_eq_ok hdegree
    exact ⟨q, r, s, hpowLeft, hpowRight, hpow, by rw [hmul, ht.unique hs hp hbound]⟩

/-- The fifth power of `x + 1` as a product of its square and its cube. -/
theorem pow_exponents_binomial :
    ∃ p q r s : Poly .single, p.terms = [⟨1, 1⟩, ⟨1, 0⟩] ∧ p.pow 2 = .ok q ∧ p.pow 3 = .ok r ∧
      p.pow 5 = .ok s ∧ q.mul r = .ok s ∧ s.Represents (toPolynomial p.terms ^ 5) ∧
      product (List.replicate 5 p) = .ok s := by
  let p : Poly .single := ⟨[⟨1, 1⟩, ⟨1, 0⟩], by decide +kernel, by decide +kernel⟩
  have hp : IntegerTerms p.terms := by
    unfold IntegerTerms
    decide +kernel
  have hbound : weight p.terms ^ 5 ≤ 2 ^ Format.single.precision := by decide +kernel
  obtain ⟨hpowers, hsums, -⟩ := pow_exponents (f := .single)
  obtain ⟨q, r, s, hq, hr, hs, hmul⟩ := hsums p 2 3 hp hbound (by decide)
  obtain ⟨s', hs', hrepresents, hproduct⟩ := hpowers p 5 hp hbound (by decide)
  obtain rfl : s = s' := Except.ok.inj (hs.symm.trans hs')
  exact ⟨p, q, r, s, rfl, hq, hr, hs, hmul, hrepresents, hproduct⟩

end Poly

end FloatPolynomial
