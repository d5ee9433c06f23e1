import FloatPolynomial.Binary.Encoding
import FloatPolynomial.Proofs.Binary.Powers
import FloatPolynomial.Proofs.Binary.Reciprocals
import FloatPolynomial.Proofs.Equality
import FloatPolynomial.Proofs.IntegerPolynomials

/-!
# Division After Multiplication

Division multiplies by the rounded reciprocal, so it need not undo a multiplication, even if that
was exact.  Where integers are multiplied exactly and divided again, no term is lost or added, and
each coefficient is within one unit in the last place of what it was; `divide_scale` says when it is
the same.
-/

namespace FloatPolynomial

variable {f : Format}

namespace Poly

/-- Without vanishing products a multiple has a term for each term. -/
theorem terms_scale (p : Poly f) {factor : Binary f} (hfactor : factor.isZero = false)
    (h : ∀ t ∈ p.terms, (t.coefficient * factor).isZero = false) :
    (p.scale factor).terms = p.terms.map fun t ↦ ⟨t.coefficient * factor, t.power⟩ := by
  rw [scale, hfactor, if_neg Bool.false_ne_true, terms_ofTerms]
  apply canonicalize_eq_self
  constructor
  · exact List.pairwise_map.mpr p.canonical.descending
  · exact List.forall_mem_map.mpr h

theorem zero_scale (factor : Binary f) : (0 : Poly f).scale factor = 0 := by
  unfold scale
  split
  · rfl
  · exact ofTerms_nil

/-- A coefficient is multiplied by the divisor and by its reciprocal, and rounded after each. -/
theorem terms_divide_scale (hscale : 2 * f.precision ≤ f.scale) (hroom : f.scale + 1 < f.maxPlace)
    {p : Poly f} {d : Binary f} (h : ∀ t ∈ p.terms, Binary.ExactFactors t.coefficient d) :
    ((p.scale d).divide d).terms =
      p.terms.map fun t ↦ ⟨t.coefficient * d * (1 / d), t.power⟩ := by
  rcases eq_or_ne p.terms [] with hnil | hne
  · obtain rfl : p = 0 := Poly.ext hnil
    rw [zero_scale, divide, zero_scale]
    rfl
  obtain ⟨s, hs⟩ := List.exists_mem_of_ne_nil _ hne
  have hreciprocal : (1 / d).isZero = false := by
    refine eq_false_of_ne_true fun hzero ↦ ?_
    have hproduct := Binary.isZero_mul (Binary.isFinite_of_isInteger (h s hs).isInteger_mul) hzero
    rw [((h s hs).withinUlp hscale hroom).isZero] at hproduct
    cases hproduct
  have hterms := terms_scale p (h s hs).right_ne fun t ht ↦ (h t ht).isZero_mul
  rw [divide, terms_scale _ hreciprocal, hterms, List.map_map]
  · rfl
  · rw [hterms]
    exact List.forall_mem_map.mpr fun t ht ↦ ((h t ht).withinUlp hscale hroom).isZero

/-- Division after an exact multiplication gives the terms of the polynomial, each of them with its
power and its sign and within one unit in the last place of its coefficient.  The result is equal to
the polynomial if and only if every coefficient survives being multiplied by the divisor and by its
rounded reciprocal.  All of them do if the product of the divisor and its reciprocal is near enough
to one, as it is for powers of two. -/
theorem divide_scale (hf : f = .single ∨ f = .double) {p : Poly f} (hp : IntegerTerms p.terms)
    {d : Binary f} (hd : d.isInteger = true) (hzero : d.isZero = false)
    (hexact : ∀ t ∈ p.terms, (t.coefficient.toInt * d.toInt).natAbs ≤ 2 ^ f.precision) :
    ((p.scale d).divide d).terms =
      p.terms.map (fun t ↦ ⟨t.coefficient * d * (1 / d), t.power⟩) ∧
    (∀ t ∈ p.terms, Binary.WithinUlp t.coefficient (t.coefficient * d * (1 / d))) ∧
    (((p.scale d).divide d).equal p = true ↔
      ∀ t ∈ p.terms, t.coefficient * d * (1 / d) = t.coefficient) ∧
    (|d.value * (1 / d).value - 1| ≤ 1 / 2 ^ (f.precision + 1) → (p.scale d).divide d = p) ∧
    ∀ exponent, d.toInt.natAbs = 2 ^ exponent → (p.scale d).divide d = p := by
  have hscale : 2 * f.precision ≤ f.scale := by
    rcases hf with rfl | rfl <;> decide
  have hroom : f.scale + 1 < f.maxPlace := by
    rcases hf with rfl | rfl <;> decide
  have hfactors : ∀ t ∈ p.terms, Binary.ExactFactors t.coefficient d := fun t ht ↦
    ⟨hp t ht, hd, p.canonical.nonzero t ht, hzero, hexact t ht⟩
  have hterms := terms_divide_scale hscale hroom hfactors
  have hsame (h : ∀ t ∈ p.terms, t.coefficient * d * (1 / d) = t.coefficient) :
      (p.scale d).divide d = p := by
    have hmap : p.terms.map (fun t ↦ (⟨t.coefficient * d * (1 / d), t.power⟩ : Term f)) =
        p.terms.map id :=
      List.map_congr_left fun t ht ↦ congrArg (Term.mk · t.power) (h t ht)
    exact Poly.ext (by rw [hterms, hmap, List.map_id])
  refine ⟨hterms, fun t ht ↦ (hfactors t ht).withinUlp hscale hroom, ?_, ?_, ?_⟩
  · rw [equal_iff]
    constructor
    · rintro ⟨hback, -⟩ t ht
      have hmap := congrArg terms hback
      rw [hterms] at hmap
      exact congrArg Term.coefficient (List.map_inj_left.mp (hmap.trans (List.map_id _).symm) t ht)
    · intro h
      rw [hsame h]
      refine ⟨rfl, fun t ht hnan ↦ ?_⟩
      have hinteger := hp t ht
      rw [hnan] at hinteger
      cases hinteger
  · exact fun hunit ↦ hsame fun t ht ↦ (hfactors t ht).eq_self hunit
  · refine fun exponent hpower ↦ hsame fun t ht ↦ (hfactors t ht).eq_self ?_
    rw [(hfactors t ht).value_mul_value_one_div hscale hpower, sub_self, abs_zero]
    positivity

example : Format.single.precision = 24 ∧ Format.double.precision = 53 := by decide

/-- `3x^2 - 5` is multiplied and divided by three, whose reciprocal is rounded, and comes back. -/
theorem divide_scale_three :
    ∃ (p : Poly .double) (d : Binary .double),
      p.terms = [⟨Binary.ofBits .double 0x4008000000000000, 2⟩,
        ⟨Binary.ofBits .double 0xc014000000000000, 0⟩] ∧
      d = Binary.ofBits .double 0x4008000000000000 ∧ (p.scale d).divide d = p := by
  let d : Binary .double := Binary.ofBits .double 0x4008000000000000
  let p : Poly .double := ⟨[⟨d, 2⟩, ⟨Binary.ofBits .double 0xc014000000000000, 0⟩],
    by decide +kernel, by decide +kernel⟩
  have hp : IntegerTerms p.terms := by
    unfold IntegerTerms
    decide +kernel
  have hunit : |d.value * (1 / d).value - 1| ≤ 1 / 2 ^ (Format.double.precision + 1) := by
    decide +kernel
  obtain ⟨-, -, -, hback, -⟩ := divide_scale (Or.inr rfl) hp
    (by decide +kernel : d.isInteger = true) (by decide +kernel) (by decide +kernel)
  exact ⟨p, d, rfl, rfl, hback hunit⟩

/-- The number one, multiplied and divided by 49, is the number below one. -/
theorem divide_scale_forty_nine :
    ∃ (p : Poly .double) (d : Binary .double), p.terms = [⟨1, 0⟩] ∧
      d = Binary.ofBits .double 0x4048800000000000 ∧ d.isInteger = true ∧ d.toInt = 49 ∧
      (∀ t ∈ p.terms, t.coefficient.isInteger = true ∧
        (t.coefficient.toInt * d.toInt).natAbs ≤ 2 ^ 53) ∧
      ((p.scale d).divide d).terms = [⟨Binary.ofBits .double 0x3fefffffffffffff, 0⟩] ∧
      ((p.scale d).divide d).equal p = false := by
  let d : Binary .double := Binary.ofBits .double 0x4048800000000000
  let p : Poly .double := ⟨[⟨1, 0⟩], by decide +kernel, by decide +kernel⟩
  have hfactors : ∀ t ∈ p.terms, Binary.ExactFactors t.coefficient d :=
    List.forall_mem_singleton.mpr ⟨by decide +kernel, by decide +kernel, by decide +kernel,
      by decide +kernel, by decide +kernel⟩
  have hterms : ((p.scale d).divide d).terms = [⟨Binary.ofBits .double 0x3fefffffffffffff, 0⟩] := by
    rw [terms_divide_scale (by decide) (by decide) hfactors]
    decide +kernel
  refine ⟨p, d, rfl, rfl, by decide +kernel, by decide +kernel,
    fun t ht ↦ ⟨(hfactors t ht).left, (hfactors t ht).product⟩, hterms, ?_⟩
  rw [equal, hterms]
  decide +kernel

end Poly

end FloatPolynomial
