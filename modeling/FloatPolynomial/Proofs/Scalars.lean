import FloatPolynomial.Proofs.Pointwise

/-!
# Numbers as Constant Polynomials

Adding a number edits the constant coefficient in place, and a multiple by a number or a term skips
the pairing of terms.  Here each of these is the operation on polynomials with the constant, or the
single term, as the other polynomial.  The zero constant is the zero polynomial, which has no terms,
so it needs a case of its own wherever products are formed from terms.

A product with a term and the product with its polynomial succeed together, with the same result.
-/

namespace FloatPolynomial

namespace Poly

variable {f : Format}

theorem terms_ofTerms_singleton (t : Term f) :
    (ofTerms [t]).terms = termOf t.power t.coefficient := by
  have hsorted : canonicalize [t] = dropZeros [t] :=
    canonicalize_of_descending (List.pairwise_singleton _ t)
  rw [terms_ofTerms, hsorted, dropZeros, termOf_eq, List.filter_singleton]
  cases h : t.isZero <;> rw [← Term.isZero_eq, h] <;> rfl

theorem terms_constant (c : Binary f) : (constant c).terms = termOf 0 c :=
  terms_ofTerms_singleton ⟨c, 0⟩

theorem ofTerms_singleton_of_isZero {t : Term f} (h : t.isZero = true) : ofTerms [t] = 0 := by
  apply Poly.ext
  rw [terms_ofTerms_singleton, terms_zero]
  exact if_pos h

theorem terms_ofTerms_singleton_of_ne {t : Term f} (h : t.isZero = false) :
    (ofTerms [t]).terms = [t] := by
  rw [terms_ofTerms_singleton, termOf_eq, ← Term.isZero_eq, h, if_neg Bool.false_ne_true]

theorem neg_constant (c : Binary f) : -constant c = constant (-c) := by
  apply Poly.ext
  rw [terms_neg, terms_constant, terms_constant, termOf_eq, termOf_eq, Binary.isZero_neg]
  split <;> rfl

theorem addConstant_eq_add (p : Poly f) (c : Binary f) : p.addConstant c = p + constant c := by
  calc
    p.addConstant c = ofTerms (p.terms ++ [⟨c, 0⟩]) := by
      have hset := setCoefficient_ofTerms p.terms ⟨c, 0⟩
      rwa [ofTerms_terms] at hset
    _ = ofTerms p.terms + ofTerms [⟨c, 0⟩] :=
      (ofTerms_add_ofTerms p.terms (List.pairwise_singleton ..)).symm
    _ = p + constant c := by rw [ofTerms_terms, constant]

theorem subConstant_eq_sub (p : Poly f) (c : Binary f) : p.subConstant c = p - constant c := by
  rw [subConstant, addConstant_eq_add, ← neg_constant, sub_def]

theorem constantSub_eq_sub (c : Binary f) (p : Poly f) : constantSub c p = constant c - p := by
  rw [constantSub, addConstant_eq_add, Poly.add_comm, sub_def]

theorem mul_zero_eq_ok (p : Poly f) : p.mul 0 = .ok 0 := by
  rw [mul_eq_ok_iff, terms_zero, pairProducts_nil_right, ofTerms_nil]
  exact ⟨fun _ _ ↦ List.forall_mem_nil _, rfl⟩

theorem zero_mul_eq_ok (p : Poly f) : (0 : Poly f).mul p = .ok 0 := by
  rw [mul_eq_ok_iff, terms_zero, pairProducts_nil_left, ofTerms_nil]
  exact ⟨List.forall_mem_nil _, rfl⟩

theorem mulTerm_of_isZero (p : Poly f) {t : Term f} (h : t.isZero = true) :
    p.mulTerm t = .ok 0 := by
  rw [mulTerm, if_pos h]

/-- A product with a term succeeds like the product with its polynomial. -/
theorem mulTerm_eq_ok_iff_mul {p r : Poly f} {t : Term f} :
    p.mulTerm t = .ok r ↔ p.mul (ofTerms [t]) = .ok r := by
  cases ht : t.isZero with
  | true => rw [mulTerm_of_isZero p ht, ofTerms_singleton_of_isZero ht, mul_zero_eq_ok]
  | false =>
    rw [mulTerm_eq_ok_iff ht, mul_eq_ok_iff, terms_ofTerms_singleton_of_ne ht,
      pairProducts_singleton_right]
    simp only [PowersFit, List.forall_mem_singleton, Term.fits_comm]

theorem exists_mulTerm_eq_error_iff {p : Poly f} {t : Term f} :
    (∃ e, p.mulTerm t = .error e) ↔ ∃ e, p.mul (ofTerms [t]) = .error e := by
  simp only [exists_eq_error_iff, mulTerm_eq_ok_iff_mul]

/-- A constant raises no power, so the product with it always succeeds. -/
theorem mulTerm_constant (p : Poly f) (c : Binary f) : p.mulTerm ⟨c, 0⟩ = .ok (p.scale c) := by
  rw [scale]
  cases hc : c.isZero with
  | true => exact mulTerm_of_isZero p hc
  | false =>
    have ht : (⟨c, 0⟩ : Term f).isZero = false := hc
    rw [mulTerm_eq_ok_iff ht, if_neg Bool.false_ne_true]
    constructor
    · intro s _
      rw [Term.Fits, UInt32.toNat_zero, Nat.zero_add]
      exact s.power.toNat_lt_size
    · congr 1
      apply List.map_congr_left
      intro s _
      rw [Term.product, Binary.mul_comm, UInt32.zero_add]

theorem mul_constant (p : Poly f) (c : Binary f) : p.mul (constant c) = .ok (p.scale c) :=
  mulTerm_eq_ok_iff_mul.mp (mulTerm_constant p c)

theorem constant_mul (p : Poly f) (c : Binary f) : (constant c).mul p = .ok (p.scale c) := by
  cases hc : (⟨c, 0⟩ : Term f).isZero with
  | true =>
    rw [constant, ofTerms_singleton_of_isZero hc, zero_mul_eq_ok, ← mulTerm_constant,
      mulTerm_of_isZero p hc]
  | false =>
    rw [mul_eq_ok_iff, constant, terms_ofTerms_singleton_of_ne hc, pairProducts_cons,
      pairProducts_nil_left, List.append_nil, PowersFit, List.forall_mem_singleton]
    exact (mulTerm_eq_ok_iff hc).mp (mulTerm_constant p c)

/-- A number acts on a polynomial as its constant polynomial does, in sums, differences and products
on either side, and these products always succeed.  A term acts on it as its polynomial does, and
the two products are refused together. -/
theorem constant_operations (p : Poly f) (c : Binary f) :
    p.addConstant c = p + constant c ∧
    p.subConstant c = p - constant c ∧
    constantSub c p = constant c - p ∧
    p.mulTerm ⟨c, 0⟩ = .ok (p.scale c) ∧
    p.mul (constant c) = .ok (p.scale c) ∧
    (constant c).mul p = .ok (p.scale c) ∧
    ∀ t, (∀ r, p.mulTerm t = .ok r ↔ p.mul (ofTerms [t]) = .ok r) ∧
      ((∃ e, p.mulTerm t = .error e) ↔ ∃ e, p.mul (ofTerms [t]) = .error e) :=
  ⟨addConstant_eq_add p c, subConstant_eq_sub p c, constantSub_eq_sub c p, mulTerm_constant p c,
    mul_constant p c, constant_mul p c,
    fun _ ↦ ⟨fun _ ↦ mulTerm_eq_ok_iff_mul, exists_mulTerm_eq_error_iff⟩⟩

end Poly

end FloatPolynomial
