import FloatPolynomial.Poly.Arithmetic
import FloatPolynomial.Proofs.Results

/-!
# When Products Succeed

Whichever way a product is formed, it succeeds exactly if the sum of every two powers fits into 32
bits, and then it is built from the products of all pairs of terms, row by row.  That a factor of
a single term is taken to the other side does not show in a product that succeeds, because the
product of two terms does not depend on their order.
-/

namespace FloatPolynomial

variable {f : Format}

namespace Term

/-- The sum of the powers fits into 32 bits. -/
def Fits (s t : Term f) : Prop :=
  s.power.toNat + t.power.toNat < UInt32.size

/-- The product of two terms whose powers fit. -/
def product (s t : Term f) : Term f :=
  ⟨s.coefficient * t.coefficient, s.power + t.power⟩

theorem times_eq_ok_iff {s t u : Term f} : s.times t = .ok u ↔ s.Fits t ∧ u = s.product t := by
  unfold times Fits
  split
  · rw [Except.ok.injEq]
    constructor
    · rintro rfl
      exact ⟨‹_›, rfl⟩
    · rintro ⟨-, rfl⟩
      rfl
  · exact iff_of_false error_ne_ok fun h ↦ absurd h.1 ‹_›

theorem fits_comm {s t : Term f} : s.Fits t ↔ t.Fits s := by
  rw [Fits, Fits, Nat.add_comm]

theorem product_comm (s t : Term f) : s.product t = t.product s := by
  rw [product, product, Binary.mul_comm, UInt32.add_comm]

theorem toNat_power_product {s t : Term f} (h : s.Fits t) :
    (s.product t).power.toNat = s.power.toNat + t.power.toNat := by
  rw [product, UInt32.toNat_add]
  exact Nat.mod_eq_of_lt h

end Term

namespace Poly

/-- The products of all pairs of terms, row by row. -/
def pairProducts (left right : List (Term f)) : List (Term f) :=
  left.flatMap fun s ↦ right.map s.product

/-- The sum of every two powers fits into 32 bits. -/
def PowersFit (left right : List (Term f)) : Prop :=
  ∀ s ∈ left, ∀ t ∈ right, s.Fits t

@[simp]
theorem pairProducts_nil_left (right : List (Term f)) : pairProducts [] right = [] := rfl

@[simp]
theorem pairProducts_nil_right (left : List (Term f)) : pairProducts left [] = [] := by
  simp [pairProducts]

theorem pairProducts_cons (s : Term f) (left right : List (Term f)) :
    pairProducts (s :: left) right = right.map s.product ++ pairProducts left right := rfl

theorem pairProducts_singleton_right (left : List (Term f)) (t : Term f) :
    pairProducts left [t] = left.map (Term.product t) := by
  calc
    pairProducts left [t] = left.flatMap fun s ↦ [s.product t] := rfl
    _ = left.map fun s ↦ s.product t := List.flatMap_pure_eq_map _ left
    _ = left.map (Term.product t) := List.map_congr_left fun s _ ↦ Term.product_comm s t

theorem mapM_termPairs_eq_ok_iff {left right products : List (Term f)} :
    ((termPairs left right).mapM fun (s, t) ↦ s.times t) = .ok products ↔
      PowersFit left right ∧ products = pairProducts left right := by
  rw [mapM_eq_ok_iff_map (P := fun pair ↦ pair.1.Fits pair.2)
    (g := fun pair ↦ pair.1.product pair.2) fun _ _ ↦ Term.times_eq_ok_iff]
  apply and_congr
  · simp only [termPairs, List.mem_flatMap, List.mem_map, PowersFit]
    constructor
    · intro h s hs t ht
      exact h (s, t) ⟨s, hs, t, ht, rfl⟩
    · rintro h _ ⟨s, hs, t, ht, rfl⟩
      exact h s hs t ht
  · simp only [termPairs, pairProducts, List.map_flatMap, List.map_map]
    rfl

/-- A polynomial built from products succeeds when they do. -/
theorem ofTerms_bind_eq_ok_iff {result : Except PowerOverflow (List (Term f))} {P : Prop}
    {products : List (Term f)} {r : Poly f}
    (h : ∀ terms, result = .ok terms ↔ P ∧ terms = products) :
    (do return ofTerms (← result)) = .ok r ↔ P ∧ r = ofTerms products := by
  rw [bind_eq_ok_iff]
  simp only [h]
  constructor
  · rintro ⟨_, ⟨hp, rfl⟩, hbuilt⟩
    cases hbuilt
    exact ⟨hp, rfl⟩
  · rintro ⟨hp, rfl⟩
    exact ⟨_, ⟨hp, rfl⟩, rfl⟩

/-- A product with a term that is not zero. -/
theorem mulTerm_eq_ok_iff {p r : Poly f} {t : Term f} (ht : t.isZero = false) :
    p.mulTerm t = .ok r ↔
      (∀ s ∈ p.terms, t.Fits s) ∧ r = ofTerms (p.terms.map (Term.product t)) := by
  rw [mulTerm, ht, if_neg Bool.false_ne_true]
  apply ofTerms_bind_eq_ok_iff
  intro products
  apply mapM_eq_ok_iff_map
  intro s u
  rw [Term.times_eq_ok_iff, Term.fits_comm, Term.product_comm]

/-- All ways to form a product agree. -/
theorem mul_eq_ok_iff {p q r : Poly f} :
    p.mul q = .ok r ↔
      PowersFit p.terms q.terms ∧ r = ofTerms (pairProducts p.terms q.terms) := by
  have hzero : (.ok 0 : Except PowerOverflow (Poly f)) = .ok r ↔ r = 0 := by
    rw [Except.ok.injEq, eq_comm]
  have hright (hq : q.terms = []) : p.mul q = .ok 0 := by
    rw [mul, hq]
    cases p.terms <;> rfl
  rcases hp : p.terms with _ | ⟨s, _ | ⟨s', left⟩⟩
  · rw [mul, hp, hzero, pairProducts_nil_left, ofTerms_nil]
    exact (and_iff_right (List.forall_mem_nil _)).symm
  · rcases hq : q.terms with _ | ⟨t, right⟩
    · rw [hright hq, hzero, pairProducts_nil_right, ofTerms_nil]
      exact (and_iff_right fun _ _ ↦ List.forall_mem_nil _).symm
    · have hs : s.isZero = false := p.canonical.nonzero s (hp ▸ List.mem_singleton_self s)
      have hmul : p.mul q = q.mulTerm s := by rw [mul, hp, hq]
      rw [hmul, mulTerm_eq_ok_iff hs, hq, pairProducts_cons, pairProducts_nil_left,
        List.append_nil, PowersFit, List.forall_mem_singleton]
  · rcases hq : q.terms with _ | ⟨t, _ | ⟨t', right⟩⟩
    · rw [hright hq, hzero, pairProducts_nil_right, ofTerms_nil]
      exact (and_iff_right fun _ _ ↦ List.forall_mem_nil _).symm
    · have ht : t.isZero = false := q.canonical.nonzero t (hq ▸ List.mem_singleton_self t)
      have hmul : p.mul q = p.mulTerm t := by rw [mul, hp, hq]
      rw [hmul, mulTerm_eq_ok_iff ht, hp, pairProducts_singleton_right]
      simp only [PowersFit, List.forall_mem_singleton, Term.fits_comm]
    · rw [mul, hp, hq]
      apply ofTerms_bind_eq_ok_iff
      intro products
      exact mapM_termPairs_eq_ok_iff

end Poly

end FloatPolynomial
