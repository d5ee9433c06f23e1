import FloatPolynomial.Proofs.Accumulation
import FloatPolynomial.Proofs.Products

/-!
# Overflow of Products

A product is refused exactly if the degrees of its factors add up to more than 32 bits hold.  The
pair of the leading terms comes first in every order of forming a product, and no other pair has a
greater sum of powers; so this pair decides, and its powers are reported.  The polynomial that is
iterated over comes first in the report, which is the right factor if the left one is a single
term.

In a product that is not refused every power is a sum of two powers as natural numbers.  The
greatest of these sums has one pair, so the coefficient there is one rounded product, which is
absent only if it was rounded to zero.
-/

namespace FloatPolynomial

variable {f : Format}

namespace Term

theorem times_eq_error_iff {s t : Term f} {e : PowerOverflow} :
    s.times t = .error e ↔ ¬ s.Fits t ∧ e = ⟨s.power, t.power⟩ := by
  unfold times Fits
  split
  · exact iff_of_false error_ne_ok.symm fun h ↦ h.1 ‹_›
  · rw [Except.error.injEq, eq_comm]
    exact (and_iff_right ‹_›).symm

theorem Fits.mono {s s' t t' : Term f} (h : s.Fits t) (hs : s'.power ≤ s.power)
    (ht : t'.power ≤ t.power) : s'.Fits t' := by
  rw [UInt32.le_iff_toNat_le] at hs ht
  unfold Fits at h ⊢
  omega

theorem exists_times_of_fits {s t : Term f} (h : s.Fits t) : ∃ u, s.times t = .ok u :=
  ⟨s.product t, times_eq_ok_iff.mpr ⟨h, rfl⟩⟩

end Term

namespace Poly

theorem ofTerms_bind_eq_error_iff {result : Except PowerOverflow (List (Term f))}
    {e : PowerOverflow} : (do return ofTerms (← result)) = .error e ↔ result = .error e := by
  rw [bind_eq_error_iff]
  constructor
  · rintro (h | ⟨_, _, hpure⟩)
    · exact h
    · exact absurd hpure.symm error_ne_ok
  · exact Or.inl

theorem mulTerm_eq_error_iff {p : Poly f} {t : Term f} {e : PowerOverflow} :
    p.mulTerm t = .error e ↔
      p.isZero = false ∧ t.isZero = false ∧
        UInt32.size ≤ p.degree.toNat + t.power.toNat ∧ e = ⟨p.degree, t.power⟩ := by
  rw [mulTerm]
  split
  · rename_i hzero
    apply iff_of_false error_ne_ok.symm
    rw [hzero]
    rintro ⟨-, h, -⟩
    cases h
  · rename_i hnonzero
    rw [ofTerms_bind_eq_error_iff, isZero]
    cases hp : p.terms with
    | nil =>
      apply iff_of_false error_ne_ok.symm
      rintro ⟨h, -⟩
      cases h
    | cons lead rest =>
      have hfirst : ∀ u, lead.times t = .ok u → ∀ s ∈ rest, ∃ u, s.times t = .ok u := by
        intro u hu s hs
        have hle : s.power ≤ lead.power := by
          rw [← degree_of_cons hp]
          exact power_le_degree (hp ▸ List.mem_cons_of_mem lead hs)
        exact Term.exists_times_of_fits
          ((Term.times_eq_ok_iff.mp hu).1.mono hle (UInt32.le_refl _))
      rw [mapM_cons_eq_error_iff hfirst, Term.times_eq_error_iff, degree_of_cons hp, Term.Fits,
        Nat.not_lt]
      simp only [List.isEmpty_cons, hnonzero, true_and]

theorem mapM_termPairs_eq_error_iff {p q : Poly f} {s t : Term f} {left right : List (Term f)}
    (hp : p.terms = s :: left) (hq : q.terms = t :: right) {e : PowerOverflow} :
    ((termPairs (s :: left) (t :: right)).mapM fun (s, t) ↦ s.times t) = .error e ↔
      ¬ s.Fits t ∧ e = ⟨s.power, t.power⟩ := by
  have hfirst : ∀ u, s.times t = .ok u →
      ∀ pair ∈ right.map (Prod.mk s) ++ termPairs left (t :: right),
        ∃ u, pair.1.times pair.2 = .ok u := by
    intro u hu pair hpair
    have hmem : pair ∈ termPairs p.terms q.terms := by
      rw [hp, hq]
      exact List.mem_cons_of_mem _ hpair
    simp only [termPairs, List.mem_flatMap, List.mem_map] at hmem
    obtain ⟨s', hs', t', ht', rfl⟩ := hmem
    have hleft := power_le_degree hs'
    have hright := power_le_degree ht'
    rw [degree_of_cons hp] at hleft
    rw [degree_of_cons hq] at hright
    exact Term.exists_times_of_fits ((Term.times_eq_ok_iff.mp hu).1.mono hleft hright)
  rw [← Term.times_eq_error_iff]
  exact mapM_cons_eq_error_iff hfirst

/-- However a product is formed, it is refused for its leading terms or not at all. -/
theorem mul_eq_error_iff {p q : Poly f} {e : PowerOverflow} :
    p.mul q = .error e ↔
      p.isZero = false ∧ q.isZero = false ∧ UInt32.size ≤ p.degree.toNat + q.degree.toNat ∧
        e = if p.terms.length = 1 then ⟨q.degree, p.degree⟩ else ⟨p.degree, q.degree⟩ := by
  rcases hp : p.terms with _ | ⟨s, _ | ⟨s', left⟩⟩
  · have hmul : p.mul q = .ok 0 := by rw [mul, hp]
    simp [hmul, isZero_of_nil hp]
  · rcases hq : q.terms with _ | ⟨t, right⟩
    · have hmul : p.mul q = .ok 0 := by rw [mul, hp, hq]
      simp [hmul, isZero_of_nil hq]
    · have hs : s.isZero = false := p.canonical.nonzero s (hp ▸ List.mem_singleton_self s)
      have hmul : p.mul q = q.mulTerm s := by rw [mul, hp, hq]
      rw [hmul, mulTerm_eq_error_iff, degree_of_cons hp, Nat.add_comm]
      simp [hs, isZero_of_cons hp]
  · rcases hq : q.terms with _ | ⟨t, _ | ⟨t', right⟩⟩
    · have hmul : p.mul q = .ok 0 := by rw [mul, hp, hq]
      simp [hmul, isZero_of_nil hq]
    · have ht : t.isZero = false := q.canonical.nonzero t (hq ▸ List.mem_singleton_self t)
      have hmul : p.mul q = p.mulTerm t := by rw [mul, hp, hq]
      rw [hmul, mulTerm_eq_error_iff, degree_of_cons hq]
      simp [ht, isZero_of_cons hq]
    · rw [mul, hp, hq]
      dsimp only
      rw [ofTerms_bind_eq_error_iff, mapM_termPairs_eq_error_iff hp hq, degree_of_cons hp,
        degree_of_cons hq, Term.Fits, Nat.not_lt]
      simp [isZero_of_cons hp, isZero_of_cons hq]

theorem exists_mul_of_degree_lt {p q : Poly f}
    (h : p.degree.toNat + q.degree.toNat < UInt32.size) : ∃ r, p.mul q = .ok r := by
  cases hmul : p.mul q with
  | ok r => exact ⟨r, rfl⟩
  | error e => exact absurd (mul_eq_error_iff.mp hmul).2.2.1 (Nat.not_le.mpr h)

/-! ## Powers of a product -/

/-- Every power of a product is the sum of a power of each factor, without reduction. -/
theorem exists_powers_of_mem_mul {p q r : Poly f} (h : p.mul q = .ok r) {u : Term f}
    (hu : u ∈ r.terms) :
    ∃ s ∈ p.terms, ∃ t ∈ q.terms, u.power.toNat = s.power.toNat + t.power.toNat := by
  obtain ⟨hfits, rfl⟩ := mul_eq_ok_iff.mp h
  obtain ⟨t, ht, hpower⟩ := exists_mem_of_mem_canonicalize hu
  obtain ⟨s, hs, hrow⟩ := List.mem_flatMap.mp ht
  obtain ⟨t, hright, rfl⟩ := List.mem_map.mp hrow
  exact ⟨s, hs, t, hright, hpower ▸ Term.toNat_power_product (hfits s hs t hright)⟩

theorem toNat_power_le_of_mem_mul {p q r : Poly f} (h : p.mul q = .ok r) {u : Term f}
    (hu : u ∈ r.terms) : u.power.toNat ≤ p.degree.toNat + q.degree.toNat := by
  obtain ⟨s, hs, t, ht, hpower⟩ := exists_powers_of_mem_mul h hu
  rw [hpower]
  exact Nat.add_le_add (toNat_power_le_degree hs) (toNat_power_le_degree ht)

theorem toNat_degree_mul_le {p q r : Poly f} (h : p.mul q = .ok r) :
    r.degree.toNat ≤ p.degree.toNat + q.degree.toNat :=
  toNat_degree_le fun _ hu ↦ toNat_power_le_of_mem_mul h hu

theorem exists_power_of_mem_mulTerm {p r : Poly f} {t : Term f} (h : p.mulTerm t = .ok r)
    {u : Term f} (hu : u ∈ r.terms) :
    ∃ s ∈ p.terms, u.power.toNat = s.power.toNat + t.power.toNat := by
  cases ht : t.isZero with
  | true =>
    rw [mulTerm, if_pos ht] at h
    cases h
    exact absurd hu List.not_mem_nil
  | false =>
    obtain ⟨hfits, rfl⟩ := (mulTerm_eq_ok_iff ht).mp h
    obtain ⟨s', hs', hpower⟩ := exists_mem_of_mem_canonicalize hu
    obtain ⟨s, hs, rfl⟩ := List.mem_map.mp hs'
    refine ⟨s, hs, ?_⟩
    rw [← hpower, Term.toNat_power_product (hfits s hs), Nat.add_comm]

/-- The product of the leading terms comes first and is alone at its power. -/
theorem pairProducts_of_cons {p q : Poly f} {s t : Term f} {left right : List (Term f)}
    (hp : p.terms = s :: left) (hq : q.terms = t :: right) (h : PowersFit p.terms q.terms) :
    ∃ others, pairProducts p.terms q.terms = s.product t :: others ∧
      ∀ u ∈ others, u.power ≠ (s.product t).power := by
  have hleft : ∀ s' ∈ left, s'.power < s.power :=
    (List.pairwise_cons.mp (hp ▸ p.canonical.descending)).1
  have hright : ∀ t' ∈ right, t'.power < t.power :=
    (List.pairwise_cons.mp (hq ▸ q.canonical.descending)).1
  have hle : ∀ t' ∈ t :: right, t'.power.toNat ≤ t.power.toNat := by
    intro t' ht'
    rw [← degree_of_cons hq]
    exact toNat_power_le_degree (hq ▸ ht')
  rw [hp, hq] at h
  -- A product of other terms has a smaller sum of powers.
  have hother : ∀ s' ∈ s :: left, ∀ t' ∈ t :: right,
      s'.power.toNat + t'.power.toNat < s.power.toNat + t.power.toNat →
        (s'.product t').power ≠ (s.product t).power := by
    intro s' hs' t' ht' hlt heq
    have hsum := congrArg UInt32.toNat heq
    rw [Term.toNat_power_product (h s' hs' t' ht'),
      Term.toNat_power_product (h s List.mem_cons_self t List.mem_cons_self)] at hsum
    omega
  refine ⟨right.map s.product ++ pairProducts left (t :: right), by rw [hp, hq]; rfl, ?_⟩
  intro u hu
  rcases List.mem_append.mp hu with hrow | hrows
  · obtain ⟨t', ht', rfl⟩ := List.mem_map.mp hrow
    have hlt := UInt32.lt_iff_toNat_lt.mp (hright t' ht')
    exact hother s List.mem_cons_self t' (List.mem_cons_of_mem t ht') (by omega)
  · obtain ⟨s', hs', hrow⟩ := List.mem_flatMap.mp hrows
    obtain ⟨t', ht', rfl⟩ := List.mem_map.mp hrow
    have hlt := UInt32.lt_iff_toNat_lt.mp (hleft s' hs')
    have hle' := hle t' ht'
    exact hother s' (List.mem_cons_of_mem s hs') t' ht' (by omega)

section Leading

variable {p q r : Poly f} {s t : Term f}

theorem toNat_degree_add_degree (h : p.mul q = .ok r) (hp : p.leadingTerm? = some s)
    (hq : q.leadingTerm? = some t) :
    (p.degree + q.degree).toNat = p.degree.toNat + q.degree.toNat := by
  have hfits : s.Fits t :=
    (mul_eq_ok_iff.mp h).1 s (leadingTerm?_eq_some_iff.mp hp).1 t (leadingTerm?_eq_some_iff.mp hq).1
  rw [degree_of_leadingTerm? hp, degree_of_leadingTerm? hq]
  exact Term.toNat_power_product hfits

/-- The coefficient at the sum of the degrees is the product of the leading coefficients. -/
theorem coefficient_mul_degree (h : p.mul q = .ok r) (hp : p.leadingTerm? = some s)
    (hq : q.leadingTerm? = some t) :
    r.coefficient (p.degree + q.degree) =
      if (s.coefficient * t.coefficient).isZero then 0 else s.coefficient * t.coefficient := by
  obtain ⟨hfits, rfl⟩ := mul_eq_ok_iff.mp h
  obtain ⟨left, hleft⟩ := List.head?_eq_some_iff.mp hp
  obtain ⟨right, hright⟩ := List.head?_eq_some_iff.mp hq
  obtain ⟨others, hproducts, hothers⟩ := pairProducts_of_cons hleft hright hfits
  have hpower : (s.product t).power = p.degree + q.degree := by
    rw [degree_of_cons hleft, degree_of_cons hright]
    rfl
  rw [hpower] at hothers
  rw [coefficient_ofTerms, hproducts, sumAt, coefficientsAt_cons, if_pos hpower,
    coefficientsAt_eq_nil hothers]
  exact Binary.zero_add_eq_ite (s.coefficient * t.coefficient)

theorem mem_mul_degree (h : p.mul q = .ok r) (hp : p.leadingTerm? = some s)
    (hq : q.leadingTerm? = some t) (hnonzero : (s.coefficient * t.coefficient).isZero = false) :
    ⟨s.coefficient * t.coefficient, p.degree + q.degree⟩ ∈ r.terms := by
  rw [mem_terms_iff, coefficient_mul_degree h hp hq, hnonzero]
  exact ⟨rfl, hnonzero⟩

/-- The term at the sum of the degrees is missing only if its coefficient was rounded to zero. -/
theorem exists_mem_mul_degree_iff (h : p.mul q = .ok r) (hp : p.leadingTerm? = some s)
    (hq : q.leadingTerm? = some t) :
    (∃ u ∈ r.terms, u.power.toNat = p.degree.toNat + q.degree.toNat) ↔
      (s.coefficient * t.coefficient).isZero = false := by
  rw [← toNat_degree_add_degree h hp hq]
  constructor
  · rintro ⟨u, hu, hpower⟩
    have hcoefficient := (mem_terms_iff.mp hu).1
    rw [UInt32.toNat_inj.mp hpower, coefficient_mul_degree h hp hq] at hcoefficient
    have hnonzero := r.canonical.nonzero u hu
    rw [Term.isZero_eq, ← hcoefficient] at hnonzero
    split at hnonzero
    · rw [Binary.isZero_zero] at hnonzero
      cases hnonzero
    · exact hnonzero
  · intro hnonzero
    exact ⟨_, mem_mul_degree h hp hq hnonzero, rfl⟩

/-- The leading terms multiply, unless their product is rounded to zero. -/
theorem leadingTerm?_mul (h : p.mul q = .ok r) (hp : p.leadingTerm? = some s)
    (hq : q.leadingTerm? = some t) (hnonzero : (s.coefficient * t.coefficient).isZero = false) :
    r.leadingTerm? = some ⟨s.coefficient * t.coefficient, p.degree + q.degree⟩ := by
  refine leadingTerm?_eq_some_iff.mpr ⟨mem_mul_degree h hp hq hnonzero, fun u hu ↦ ?_⟩
  rw [UInt32.le_iff_toNat_le, toNat_degree_add_degree h hp hq]
  exact toNat_power_le_of_mem_mul h hu

theorem degree_mul (h : p.mul q = .ok r) (hp : p.leadingTerm? = some s)
    (hq : q.leadingTerm? = some t) (hnonzero : (s.coefficient * t.coefficient).isZero = false) :
    r.degree = p.degree + q.degree :=
  degree_of_leadingTerm? (leadingTerm?_mul h hp hq hnonzero)

end Leading

/-- A product is refused exactly if neither factor is zero and their degrees add up to too much,
and the two degrees are reported, that of the polynomial iterated over first.  In a product that is
not refused every power is a sum of two powers as numbers; the coefficient at the sum of the degrees
is the product of the leading coefficients, and the degree is that sum unless this product is
zero. -/
theorem mul_overflow (p q : Poly f) :
    (∀ e, p.mul q = .error e ↔
      p.isZero = false ∧ q.isZero = false ∧ UInt32.size ≤ p.degree.toNat + q.degree.toNat ∧
        e = if p.terms.length = 1 then ⟨q.degree, p.degree⟩ else ⟨p.degree, q.degree⟩) ∧
    (∀ t e, p.mulTerm t = .error e ↔
      p.isZero = false ∧ t.isZero = false ∧
        UInt32.size ≤ p.degree.toNat + t.power.toNat ∧ e = ⟨p.degree, t.power⟩) ∧
    (∀ e : PowerOverflow, e.message =
      "power overflow in product of x^" ++ toString e.left ++ " and x^" ++ toString e.right) ∧
    (∀ t r, p.mulTerm t = .ok r →
      ∀ u ∈ r.terms, ∃ s ∈ p.terms, u.power.toNat = s.power.toNat + t.power.toNat) ∧
    ∀ r, p.mul q = .ok r →
      (∀ u ∈ r.terms, ∃ s ∈ p.terms, ∃ t ∈ q.terms,
        u.power.toNat = s.power.toNat + t.power.toNat) ∧
      (∀ u ∈ r.terms, u.power.toNat ≤ p.degree.toNat + q.degree.toNat) ∧
      ∀ s t, p.leadingTerm? = some s → q.leadingTerm? = some t →
        (p.degree + q.degree).toNat = p.degree.toNat + q.degree.toNat ∧
        r.coefficient (p.degree + q.degree) =
          (if (s.coefficient * t.coefficient).isZero then 0
            else s.coefficient * t.coefficient) ∧
        ((∃ u ∈ r.terms, u.power.toNat = p.degree.toNat + q.degree.toNat) ↔
          (s.coefficient * t.coefficient).isZero = false) ∧
        ((s.coefficient * t.coefficient).isZero = false →
          r.degree.toNat = p.degree.toNat + q.degree.toNat) := by
  refine ⟨fun e ↦ mul_eq_error_iff, fun t e ↦ mulTerm_eq_error_iff, fun e ↦ rfl,
    fun t r h u ↦ exists_power_of_mem_mulTerm h, fun r h ↦ ?_⟩
  refine ⟨fun u ↦ exists_powers_of_mem_mul h, fun u ↦ toNat_power_le_of_mem_mul h, ?_⟩
  intro s t hp hq
  have hsum := toNat_degree_add_degree h hp hq
  refine ⟨hsum, coefficient_mul_degree h hp hq, exists_mem_mul_degree_iff h hp hq,
    fun hnonzero ↦ ?_⟩
  rw [degree_mul h hp hq hnonzero, hsum]

/-- A product that reaches the greatest power there is. -/
theorem mul_overflow_greatest_power :
    ∃ p q r : Poly .single, p.terms = [⟨1, 4294967294⟩, ⟨1, 0⟩] ∧ q.terms = [⟨1, 1⟩, ⟨1, 0⟩] ∧
      p.mul q = .ok r ∧ r.degree.toNat = 4294967295 := by
  let p : Poly .single := ⟨[⟨1, 4294967294⟩, ⟨1, 0⟩], by decide +kernel, by decide +kernel⟩
  let q : Poly .single := ⟨[⟨1, 1⟩, ⟨1, 0⟩], by decide +kernel, by decide +kernel⟩
  let r : Poly .single := ofTerms (pairProducts p.terms q.terms)
  have hfits : PowersFit p.terms q.terms := by
    unfold PowersFit Term.Fits
    decide +kernel
  have hmul : p.mul q = .ok r := mul_eq_ok_iff.mpr ⟨hfits, rfl⟩
  have hproduct := (mul_overflow p q).2.2.2.2 r hmul
  have hdegree := (hproduct.2.2 ⟨1, 4294967294⟩ ⟨1, 1⟩ rfl rfl).2.2.2 (by decide +kernel)
  exact ⟨p, q, r, rfl, rfl, hmul, hdegree⟩

end Poly

end FloatPolynomial
