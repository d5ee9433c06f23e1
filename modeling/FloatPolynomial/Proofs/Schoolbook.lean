import FloatPolynomial.Proofs.Accumulation
import FloatPolynomial.Proofs.Products

/-!
# The Schoolbook Product

Rounded additions do not associate, so a product is determined only together with the order in
which the products of terms are added.  Here that order is made explicit: the coefficient at a
power is the sum from left to right over the powers of the left factor, from the highest on.

Adding the rows of the product one after the other gives the same polynomial, although zeros are
removed after every row.  `foldlM_rows` carries the sum over the rows that are done; a zero that
was removed would have been a neutral addend.
-/

namespace FloatPolynomial

namespace Poly

variable {f : Format}

/-- The powers at which the polynomial has a term, from the highest on. -/
def powers (p : Poly f) : List UInt32 :=
  p.terms.map Term.power

/-- The products of coefficients that belong to a power, by descending power of `p`. -/
def contributions (p q : Poly f) (power : UInt32) : List (Binary f) :=
  (p.powers.filter fun i ↦ i ≤ power ∧ power - i ∈ q.powers).map fun i ↦
    p.coefficient i * q.coefficient (power - i)

/-- The power of the right factor that a power of the product asks for. -/
theorem power_product_eq_iff {s t : Term f} (h : s.Fits t) {power : UInt32} :
    (s.product t).power = power ↔ s.power ≤ power ∧ t.power = power - s.power := by
  have hsum : (s.product t).power.toNat = s.power.toNat + t.power.toNat :=
    Term.toNat_power_product h
  rw [← UInt32.toNat_inj, hsum]
  constructor
  · intro heq
    have hle : s.power ≤ power := UInt32.le_iff_toNat_le.mpr (by omega)
    refine ⟨hle, UInt32.toNat_inj.mp ?_⟩
    rw [UInt32.toNat_sub_of_le _ _ hle]
    omega
  · rintro ⟨hle, heq⟩
    have hsub : t.power.toNat = power.toNat - s.power.toNat := by
      rw [heq, UInt32.toNat_sub_of_le _ _ hle]
    have hnat : s.power.toNat ≤ power.toNat := UInt32.le_iff_toNat_le.mp hle
    omega

theorem coefficientsAt_powers (q : Poly f) (power : UInt32) :
    coefficientsAt power q.terms = if power ∈ q.powers then [q.coefficient power] else [] := by
  split
  · rename_i hmem
    obtain ⟨t, ht, rfl⟩ := List.mem_map.mp hmem
    have hnonzero : (q.coefficient t.power).isZero = false := by
      rw [coefficient_of_mem ht]
      exact q.canonical.nonzero t ht
    rw [q.coefficientsAt_terms, termOf_eq, hnonzero]
    rfl
  · rename_i hmem
    apply coefficientsAt_eq_nil
    intro t ht heq
    exact hmem (List.mem_map.mpr ⟨t, ht, heq⟩)

theorem coefficientsAt_row {s : Term f} {q : Poly f} (h : ∀ t ∈ q.terms, s.Fits t)
    (power : UInt32) :
    coefficientsAt power (q.terms.map s.product) =
      if s.power ≤ power ∧ power - s.power ∈ q.powers then
        [s.coefficient * q.coefficient (power - s.power)]
      else [] := by
  by_cases hle : s.power ≤ power
  · have hsame : ∀ t ∈ q.terms,
        ((s.product t).power == power) = (t.power == power - s.power) := by
      intro t ht
      rw [Bool.eq_iff_iff, beq_iff_eq, beq_iff_eq, power_product_eq_iff (h t ht)]
      exact and_iff_right hle
    calc
      coefficientsAt power (q.terms.map s.product)
        = (q.terms.filter fun t ↦ (s.product t).power == power).map
            fun t ↦ s.coefficient * t.coefficient := by
          rw [coefficientsAt, List.filter_map, List.map_map]
          rfl
      _ = (coefficientsAt (power - s.power) q.terms).map (s.coefficient * ·) := by
          rw [List.filter_congr hsame, coefficientsAt, List.map_map]
          rfl
      _ = _ := by
          rw [coefficientsAt_powers]
          simp only [hle, true_and]
          split <;> rfl
  · rw [if_neg fun hand ↦ hle hand.1]
    apply coefficientsAt_eq_nil
    intro u hu heq
    obtain ⟨t, ht, rfl⟩ := List.mem_map.mp hu
    exact hle ((power_product_eq_iff (h t ht)).mp heq).1

theorem coefficientsAt_pairProducts {p q : Poly f} (h : PowersFit p.terms q.terms)
    (power : UInt32) :
    coefficientsAt power (pairProducts p.terms q.terms) = p.contributions q power := by
  -- Over the rows; each begins with a term of `p`.
  have hrows : ∀ rows : List (Term f), (∀ s ∈ rows, s ∈ p.terms) →
      coefficientsAt power (pairProducts rows q.terms) =
        ((rows.map Term.power).filter fun i ↦ i ≤ power ∧ power - i ∈ q.powers).map fun i ↦
          p.coefficient i * q.coefficient (power - i) := by
    intro rows hrows
    induction rows with
    | nil => rfl
    | cons s rest ih =>
      obtain ⟨hs, hrest⟩ := List.forall_mem_cons.mp hrows
      rw [pairProducts_cons, coefficientsAt_append, coefficientsAt_row (h s hs), ih hrest,
        List.map_cons, List.filter_cons, ← coefficient_of_mem hs]
      simp only [decide_eq_true_eq]
      split <;> rfl
  exact hrows p.terms fun s hs ↦ hs

/-! ## One row after the other -/

/-- A row has descending powers. -/
theorem pairwise_row {s : Term f} {q : Poly f} (h : ∀ t ∈ q.terms, s.Fits t) :
    (q.terms.map s.product).Pairwise fun t u ↦ u.power < t.power := by
  apply List.pairwise_map.mpr
  apply q.canonical.descending.imp_of_mem
  intro t u ht hu hlt
  rw [UInt32.lt_iff_toNat_lt] at hlt ⊢
  rw [Term.toNat_power_product (h t ht), Term.toNat_power_product (h u hu)]
  omega

theorem foldlM_rows {q : Poly f} {rows : List (Term f)} (hfits : PowersFit rows q.terms)
    (hnonzero : ∀ s ∈ rows, s.isZero = false) (done : List (Term f)) :
    rows.foldlM (fun (sum : Poly f) t ↦ do return sum + (← q.mulTerm t)) (ofTerms done) =
      .ok (ofTerms (done ++ pairProducts rows q.terms)) := by
  induction rows generalizing done with
  | nil => rw [pairProducts_nil_left, List.append_nil]; rfl
  | cons s rest ih =>
    obtain ⟨hs, hrest⟩ := List.forall_mem_cons.mp hfits
    obtain ⟨hzero, hzeros⟩ := List.forall_mem_cons.mp hnonzero
    have hrow : q.mulTerm s = .ok (ofTerms (q.terms.map s.product)) :=
      (mulTerm_eq_ok_iff hzero).mpr ⟨hs, rfl⟩
    calc
      (s :: rest).foldlM (fun (sum : Poly f) t ↦ do return sum + (← q.mulTerm t)) (ofTerms done)
        = rest.foldlM (fun (sum : Poly f) t ↦ do return sum + (← q.mulTerm t))
            (ofTerms done + ofTerms (q.terms.map s.product)) := by
          rw [List.foldlM_cons, hrow]
          rfl
      _ = .ok (ofTerms (done ++ q.terms.map s.product ++ pairProducts rest q.terms)) := by
          rw [ofTerms_add_ofTerms done (pairwise_row hs), ih hrest hzeros]
      _ = _ := by rw [List.append_assoc, pairProducts_cons]

/-- A product, however it is formed, is built from the products of all pairs of terms, row by row;
has as its coefficients the sums of the contributions from left to right, unless they are zero;
and is the sum of its rows. -/
theorem mul_schoolbook {p q r : Poly f} (h : p.mul q = .ok r) :
    (∃ products, ((termPairs p.terms q.terms).mapM fun (s, t) ↦ s.times t) = .ok products ∧
      r = ofTerms products) ∧
    (∀ c power, ⟨c, power⟩ ∈ r.terms ↔
      leftSum (p.contributions q power) = some c ∧ c.isZero = false) ∧
    p.terms.foldlM (fun (sum : Poly f) t ↦ do return sum + (← q.mulTerm t)) 0 = .ok r := by
  obtain ⟨hfits, rfl⟩ := mul_eq_ok_iff.mp h
  refine ⟨⟨_, mapM_termPairs_eq_ok_iff.mpr ⟨hfits, rfl⟩, rfl⟩, ?_, ?_⟩
  · intro c power
    rw [terms_ofTerms, mem_canonicalize, coefficientsAt_pairProducts hfits]
    rfl
  · rw [← ofTerms_nil]
    exact foldlM_rows hfits p.canonical.nonzero []

/-- The product of `x + 1` and `x - 1`, row by row. -/
theorem mul_schoolbook_conjugates :
    ∃ p q r : Poly .single, p.terms = [⟨1, 1⟩, ⟨1, 0⟩] ∧ q.terms = [⟨1, 1⟩, ⟨-1, 0⟩] ∧
      r.terms = [⟨1, 2⟩, ⟨-1, 0⟩] ∧ p.mul q = .ok r ∧
      p.terms.foldlM (fun (sum : Poly .single) t ↦ do return sum + (← q.mulTerm t)) 0 = .ok r := by
  let p : Poly .single := ⟨[⟨1, 1⟩, ⟨1, 0⟩], by decide +kernel, by decide +kernel⟩
  let q : Poly .single := ⟨[⟨1, 1⟩, ⟨-1, 0⟩], by decide +kernel, by decide +kernel⟩
  let r : Poly .single := ⟨[⟨1, 2⟩, ⟨-1, 0⟩], by decide +kernel, by decide +kernel⟩
  have hfits : PowersFit p.terms q.terms := by
    unfold PowersFit Term.Fits
    decide +kernel
  have hterms : r = ofTerms (pairProducts p.terms q.terms) := by
    apply Poly.ext
    rw [terms_ofTerms, canonicalize, sortTerms_eq_self (by decide +kernel)]
    decide +kernel
  have hmul : p.mul q = .ok r := mul_eq_ok_iff.mpr ⟨hfits, hterms⟩
  exact ⟨p, q, r, rfl, rfl, rfl, hmul, (mul_schoolbook hmul).2.2⟩

end Poly

end FloatPolynomial
