import FloatPolynomial.Proofs.Evaluation
import FloatPolynomial.Proofs.Majorants
import FloatPolynomial.Proofs.RingLaws

/-!
# Values Without Rounding

Evaluation of polynomials with integer coefficients at integers.  As long as the majorant at the
argument is held by the format, Horner's scheme is exact, whatever the gaps between the powers are:
one step replaces the first two terms by a single one and keeps the value of the integer polynomial,
and the majorant does not increase.  The powers of the argument need a bound of their own, since an
intermediate result may cancel; the leading coefficient gives it, which is not zero.

Sums and products of polynomials are exact below the same bounds, so evaluation commutes with them.
-/

namespace FloatPolynomial

variable {f : Format} {x : Binary f} {a : ℤ} {radius : ℕ}

/-- A power that is multiplied by an integer other than zero is not greater than the product. -/
theorem radius_pow_le {t : Term f} (ht : t.coefficient.isInteger = true) (hnonzero : t.isZero = false)
    {bound : ℕ} (h : t.coefficient.toInt.natAbs * radius ^ t.power.toNat ≤ bound) :
    radius ^ t.power.toNat ≤ bound := by
  have hne : t.coefficient.toInt ≠ 0 := by
    rw [Ne, ← Binary.isZero_iff_toInt ht]
    exact Bool.eq_false_iff.mp hnonzero
  exact (Nat.le_mul_of_pos_left _ (Int.natAbs_pos.mpr hne)).trans h

/-- What a term and a lower one are together, brought down to the power of the lower one. -/
theorem natAbs_descend_le (ha : a.natAbs ≤ radius) (c d : ℤ) (gap n : ℕ) :
    (c * a ^ gap + d).natAbs * radius ^ n ≤
      c.natAbs * radius ^ (gap + n) + d.natAbs * radius ^ n := by
  calc
    (c * a ^ gap + d).natAbs * radius ^ n
      ≤ (c.natAbs * radius ^ gap + d.natAbs) * radius ^ n := by
        refine Nat.mul_le_mul_right _ ((Int.natAbs_add_le ..).trans ?_)
        exact Nat.add_le_add_right (natAbs_mul_pow_le ha c gap) _
    _ = c.natAbs * radius ^ (gap + n) + d.natAbs * radius ^ n := by
        rw [Nat.add_mul, pow_add, Nat.mul_assoc]

section Values

variable (hx : x.HasValue a) (ha : a.natAbs ≤ radius) (hpos : 0 < radius)

include hx ha hpos

theorem Term.hasValue_eval {t : Term f} (ht : t.coefficient.isInteger = true)
    (hpower : radius ^ t.power.toNat ≤ 2 ^ f.precision)
    (hbound : t.coefficient.toInt.natAbs * radius ^ t.power.toNat ≤ 2 ^ f.precision) :
    (t.eval x).HasValue (t.coefficient.toInt * a ^ t.power.toNat) :=
  Binary.HasValue.mul ⟨ht, rfl⟩ (hx.pow ha hpos hpower) ((natAbs_mul_pow_le ha ..).trans hbound)

/-! ## Horner's scheme -/

/-- The first of two terms comes down to the power of the second. -/
def Term.descend (x : Binary f) (s t : Term f) : Term f :=
  ⟨s.coefficient * x ^ (s.power.toNat - t.power.toNat) + t.coefficient, t.power⟩

/-- One step is exact, keeps the value of the two terms and does not increase the majorant. -/
theorem Term.hasValue_descend {s t : Term f} (hs : s.coefficient.isInteger = true)
    (ht : t.coefficient.isInteger = true) (hlt : t.power < s.power)
    (hpower : radius ^ s.power.toNat ≤ 2 ^ f.precision)
    (hbound : majorant radius [s, t] ≤ 2 ^ f.precision) :
    ∃ value : ℤ, (s.descend x t).coefficient.HasValue value ∧
      value * a ^ t.power.toNat = (toPolynomial [s, t]).eval a ∧
      value.natAbs * radius ^ t.power.toNat ≤ majorant radius [s, t] := by
  have hle : t.power.toNat ≤ s.power.toNat := Nat.le_of_lt (UInt32.lt_iff_toNat_lt.mp hlt)
  rw [descend]
  generalize hgap : s.power.toNat - t.power.toNat = gap
  have hsplit : s.power.toNat = gap + t.power.toNat := by omega
  simp only [majorant_cons, majorant_nil, Nat.add_zero, hsplit] at hbound hpower ⊢
  have hgapLe : radius ^ gap ≤ radius ^ (gap + t.power.toNat) :=
    Nat.pow_le_pow_right hpos (Nat.le_add_right ..)
  have hdown : (s.coefficient * x ^ gap).HasValue (s.coefficient.toInt * a ^ gap) := by
    apply Binary.HasValue.mul ⟨hs, rfl⟩ (hx.pow ha hpos (hgapLe.trans hpower))
    calc
      (s.coefficient.toInt * a ^ gap).natAbs
        ≤ s.coefficient.toInt.natAbs * radius ^ gap := natAbs_mul_pow_le ha ..
      _ ≤ s.coefficient.toInt.natAbs * radius ^ (gap + t.power.toNat) :=
          Nat.mul_le_mul_left _ hgapLe
      _ ≤ 2 ^ f.precision := (Nat.le_add_right ..).trans hbound
  have hsum := natAbs_descend_le ha s.coefficient.toInt t.coefficient.toInt gap t.power.toNat
  refine ⟨_, hdown.add ⟨ht, rfl⟩ ?_, ?_, hsum⟩
  · exact (Nat.le_mul_of_pos_right _ (Nat.pow_pos hpos)).trans (hsum.trans hbound)
  · simp only [eval_toPolynomial, List.map_cons, List.map_nil, List.sum_cons, List.sum_nil, hsplit,
      pow_add]
    ring

/-- Horner's scheme from the first of several terms on. -/
theorem hasValue_horner {t : Term f} {rest : List (Term f)} (hintegers : IntegerTerms (t :: rest))
    (hdescending : (t :: rest).Pairwise fun s t ↦ t.power < s.power)
    (hpower : radius ^ t.power.toNat ≤ 2 ^ f.precision)
    (hbound : majorant radius (t :: rest) ≤ 2 ^ f.precision) :
    (horner x t.coefficient t.power rest).HasValue ((toPolynomial (t :: rest)).eval a) := by
  induction rest generalizing t with
  | nil =>
    rw [majorant_cons, majorant_nil, Nat.add_zero] at hbound
    rw [horner, eval_toPolynomial, List.map_singleton, List.sum_singleton]
    exact Term.hasValue_eval hx ha hpos (hintegers t List.mem_cons_self) hpower hbound
  | cons s rest ih =>
    obtain ⟨hhead, htail⟩ := List.pairwise_cons.mp hdescending
    obtain ⟨ht, hothers⟩ := List.forall_mem_cons.mp hintegers
    obtain ⟨hs, hrest⟩ := List.forall_mem_cons.mp hothers
    have hlt : s.power < t.power := hhead s List.mem_cons_self
    have hpair : majorant radius (t :: s :: rest) =
        majorant radius [t, s] + majorant radius rest := by
      simp only [majorant_cons, majorant_nil, Nat.add_zero, Nat.add_assoc]
    obtain ⟨value, hvalue, heval, hle⟩ :=
      Term.hasValue_descend hx ha hpos ht hs hlt hpower (by omega)
    have hbelow : radius ^ s.power.toNat ≤ 2 ^ f.precision := by
      have hlt := UInt32.lt_iff_toNat_lt.mp hlt
      exact (Nat.pow_le_pow_right hpos (Nat.le_of_lt hlt)).trans hpower
    have hmajorant : majorant radius (t.descend x s :: rest) ≤ 2 ^ f.precision := by
      rw [majorant_cons, hvalue.toInt_eq]
      exact (Nat.add_le_add_right hle _).trans (hpair ▸ hbound)
    have hsame : (toPolynomial (t.descend x s :: rest)).eval a =
        (toPolynomial (t :: s :: rest)).eval a := by
      have hsplit : toPolynomial (t :: s :: rest) = toPolynomial [t, s] + toPolynomial rest :=
        toPolynomial_append [t, s] rest
      rw [hsplit, toPolynomial_cons, Polynomial.eval_add, Polynomial.eval_add,
        Polynomial.eval_monomial, hvalue.toInt_eq, ← heval]
      rfl
    rw [← hsame]
    exact ih (List.forall_mem_cons.mpr ⟨hvalue.isInteger, hrest⟩)
      (List.pairwise_cons.mpr (List.pairwise_cons.mp htail)) hbelow hmajorant

/-- The values of terms add up exactly, from any integer on. -/
theorem hasValue_foldl_eval {terms : List (Term f)} (hintegers : IntegerTerms terms)
    (hpowers : ∀ t ∈ terms, radius ^ t.power.toNat ≤ 2 ^ f.precision) {start : Binary f} {b : ℤ}
    (hstart : start.HasValue b) (hbound : b.natAbs + majorant radius terms ≤ 2 ^ f.precision) :
    ((terms.map fun t ↦ t.eval x).foldl (· + ·) start).HasValue
      (b + (toPolynomial terms).eval a) := by
  induction terms generalizing start b with
  | nil =>
    rw [toPolynomial_nil, Polynomial.eval_zero, add_zero]
    exact hstart
  | cons t rest ih =>
    obtain ⟨ht, hrest⟩ := List.forall_mem_cons.mp hintegers
    obtain ⟨hpower, hpowersRest⟩ := List.forall_mem_cons.mp hpowers
    rw [majorant_cons] at hbound
    have hle := natAbs_mul_pow_le ha t.coefficient.toInt t.power.toNat
    have hsum := Int.natAbs_add_le b (t.coefficient.toInt * a ^ t.power.toNat)
    have hterm := Term.hasValue_eval hx ha hpos ht hpower (by omega)
    rw [List.map_cons, List.foldl_cons, toPolynomial_cons, Polynomial.eval_add,
      Polynomial.eval_monomial, ← add_assoc]
    exact ih hrest hpowersRest (hstart.add hterm (by omega)) (by omega)

end Values

namespace Poly

variable {p q pq : Poly f}

/-- No power of the radius at a term is greater than the bound on the majorant. -/
theorem radius_pow_le_of_mem {bound : ℕ} (hintegers : IntegerTerms p.terms)
    (hbound : majorant radius p.terms ≤ bound) {t : Term f} (ht : t ∈ p.terms) :
    radius ^ t.power.toNat ≤ bound := by
  apply radius_pow_le (hintegers t ht) (p.canonical.nonzero t ht)
  exact (List.le_sum_of_mem (List.mem_map_of_mem ht)).trans hbound

section Values

variable (hx : x.HasValue a) (ha : a.natAbs ≤ radius) (hpos : 0 < radius)

include hx ha hpos

/-- Horner's scheme computes the value of the integer polynomial. -/
theorem hasValue_eval (hintegers : IntegerTerms p.terms)
    (hbound : majorant radius p.terms ≤ 2 ^ f.precision) :
    (p.eval x).HasValue ((toPolynomial p.terms).eval a) := by
  cases hterms : p.terms with
  | nil =>
    rw [eval_of_nil hterms, toPolynomial_nil, Polynomial.eval_zero]
    exact Binary.hasValue_zero
  | cons t rest =>
    have hpower := radius_pow_le_of_mem hintegers hbound (hterms ▸ List.mem_cons_self)
    rw [eval_of_cons hterms]
    exact hasValue_horner hx ha hpos (hterms ▸ hintegers) (hterms ▸ p.canonical.descending) hpower
      (hterms ▸ hbound)

/-- In whatever order they are added, the values of the terms add up to the value of the integer
polynomial. -/
theorem hasValue_sum_eval (hintegers : IntegerTerms p.terms)
    (hbound : majorant radius p.terms ≤ 2 ^ f.precision) {terms : List (Term f)}
    (hperm : terms.Perm p.terms) :
    ((terms.map fun t : Term f ↦ t.eval x).foldl (· + ·) 0).HasValue
      ((toPolynomial p.terms).eval a) := by
  have hdenotes := (denotes_self hintegers).perm hperm
  have hpowers : ∀ t ∈ terms, radius ^ t.power.toNat ≤ 2 ^ f.precision :=
    fun t ht ↦ radius_pow_le_of_mem hintegers hbound (hperm.mem_iff.mp ht)
  rw [← majorant_perm hperm] at hbound
  have hsum := hasValue_foldl_eval hx ha hpos hdenotes.integers hpowers Binary.hasValue_zero
    (by rwa [Int.natAbs_zero, Nat.zero_add])
  rwa [zero_add, hdenotes.polynomial] at hsum

variable (hp : IntegerTerms p.terms) (hq : IntegerTerms q.terms)

include hp hq

theorem equal_eval_add
    (hbound : majorant radius p.terms + majorant radius q.terms ≤ 2 ^ f.precision) :
    ((p + q).eval x).equal (p.eval x + q.eval x) = true := by
  have hweightP := weight_le_majorant hpos p.terms
  have hweightQ := weight_le_majorant hpos q.terms
  have hdenotes := denotes_add (denotes_self hp) (denotes_self hq) (by omega)
  have hpvalue := hasValue_eval hx ha hpos hp (by omega)
  have hqvalue := hasValue_eval hx ha hpos hq (by omega)
  have hsum := hasValue_eval hx ha hpos hdenotes.integers
    ((majorant_add_le hdenotes).trans hbound)
  have hle := Int.natAbs_add_le ((toPolynomial p.terms).eval a) ((toPolynomial q.terms).eval a)
  have hple := natAbs_eval_le ha p.terms
  have hqle := natAbs_eval_le ha q.terms
  rw [hdenotes.polynomial, Polynomial.eval_add] at hsum
  exact hsum.equal (hpvalue.add hqvalue (by omega))

theorem equal_eval_mul (hmul : p.mul q = .ok pq)
    (hpbound : majorant radius p.terms ≤ 2 ^ f.precision)
    (hqbound : majorant radius q.terms ≤ 2 ^ f.precision)
    (hbound : majorant radius p.terms * majorant radius q.terms ≤ 2 ^ f.precision) :
    (pq.eval x).equal (p.eval x * q.eval x) = true := by
  have hweight : weight p.terms * weight q.terms ≤ 2 ^ f.precision :=
    (Nat.mul_le_mul (weight_le_majorant hpos _) (weight_le_majorant hpos _)).trans hbound
  have hdenotes := denotes_mul (denotes_self hp) (denotes_self hq) hweight hmul
  have hproduct := hasValue_eval hx ha hpos hdenotes.integers
    ((majorant_mul_le hdenotes).trans hbound)
  have hle : ((toPolynomial p.terms).eval a * (toPolynomial q.terms).eval a).natAbs ≤
      2 ^ f.precision := by
    rw [Int.natAbs_mul]
    exact (Nat.mul_le_mul (natAbs_eval_le ha _) (natAbs_eval_le ha _)).trans hbound
  rw [hdenotes.polynomial, Polynomial.eval_mul] at hproduct
  exact hproduct.equal
    ((hasValue_eval hx ha hpos hp hpbound).mul (hasValue_eval hx ha hpos hq hqbound) hle)

end Values

/-- As long as the absolute values of the terms, at an argument or at one if that is greater, add up
to at most `2 ^ f.precision`, Horner's scheme at an integer gives the exact value of the integer
polynomial, and so does adding up the values of the terms in any order.  Below the same bound, the
values of a sum and of a product are the sum and the product of the values. -/
theorem eval_integers :
    (∀ (p : Poly f) (x : Binary f), IntegerTerms p.terms → x.isInteger = true →
      majorant (max 1 x.toInt.natAbs) p.terms ≤ 2 ^ f.precision →
      (p.eval x).isInteger = true ∧
      (p.eval x).toInt =
        (p.terms.map fun t : Term f ↦ t.coefficient.toInt * x.toInt ^ t.power.toNat).sum ∧
      ∀ terms : List (Term f), terms.Perm p.terms →
        (p.eval x).equal ((terms.map fun t : Term f ↦ t.eval x).foldl (· + ·) 0) = true) ∧
    ∀ (p q : Poly f) (x : Binary f), IntegerTerms p.terms → IntegerTerms q.terms →
      x.isInteger = true →
      majorant (max 1 x.toInt.natAbs) p.terms ≤ 2 ^ f.precision →
      majorant (max 1 x.toInt.natAbs) q.terms ≤ 2 ^ f.precision →
      (majorant (max 1 x.toInt.natAbs) p.terms + majorant (max 1 x.toInt.natAbs) q.terms ≤
          2 ^ f.precision →
        ((p + q).eval x).equal (p.eval x + q.eval x) = true) ∧
      (majorant (max 1 x.toInt.natAbs) p.terms * majorant (max 1 x.toInt.natAbs) q.terms ≤
          2 ^ f.precision →
        p.degree.toNat + q.degree.toNat < UInt32.size →
        ∃ pq, p.mul q = .ok pq ∧ (pq.eval x).equal (p.eval x * q.eval x) = true) := by
  have hle (x : Binary f) : x.toInt.natAbs ≤ max 1 x.toInt.natAbs := Nat.le_max_right ..
  have hpos (x : Binary f) : 0 < max 1 x.toInt.natAbs :=
    Nat.lt_of_lt_of_le Nat.one_pos (Nat.le_max_left ..)
  constructor
  · intro p x hp hx hbound
    have hvalue := hasValue_eval ⟨hx, rfl⟩ (hle x) (hpos x) hp hbound
    refine ⟨hvalue.isInteger, ?_, fun terms hperm ↦ ?_⟩
    · rw [hvalue.toInt_eq, eval_toPolynomial]
    · exact hvalue.equal (hasValue_sum_eval ⟨hx, rfl⟩ (hle x) (hpos x) hp hbound hperm)
  · intro p q x hp hq hx hpbound hqbound
    refine ⟨fun hbound ↦ ?_, fun hbound hdegree ↦ ?_⟩
    · exact equal_eval_add ⟨hx, rfl⟩ (hle x) (hpos x) hp hq hbound
    · obtain ⟨pq, hmul⟩ := exists_mul_of_degree_lt hdegree
      exact ⟨pq, hmul,
        equal_eval_mul ⟨hx, rfl⟩ (hle x) (hpos x) hp hq hmul hpbound hqbound hbound⟩

/-- Two polynomials with gaps at minus two, where the first step of the first one cancels. -/
theorem eval_integers_gaps :
    ∃ p q pq : Poly .single, p.terms = [⟨1, 4⟩, ⟨1 + 1, 3⟩, ⟨1, 1⟩] ∧ q.terms = [⟨1, 2⟩, ⟨-1, 0⟩] ∧
      (p.eval (-1 + -1)).toInt = -2 ∧
      ((p + q).eval (-1 + -1)).equal (p.eval (-1 + -1) + q.eval (-1 + -1)) = true ∧
      p.mul q = .ok pq ∧
      (pq.eval (-1 + -1)).equal (p.eval (-1 + -1) * q.eval (-1 + -1)) = true := by
  let p : Poly .single := ⟨[⟨1, 4⟩, ⟨1 + 1, 3⟩, ⟨1, 1⟩], by decide +kernel, by decide +kernel⟩
  let q : Poly .single := ⟨[⟨1, 2⟩, ⟨-1, 0⟩], by decide +kernel, by decide +kernel⟩
  have hp : IntegerTerms p.terms := by
    unfold IntegerTerms
    decide +kernel
  have hq : IntegerTerms q.terms := by
    unfold IntegerTerms
    decide +kernel
  obtain ⟨hvalue, hpairs⟩ := eval_integers (f := .single)
  obtain ⟨-, heval, -⟩ := hvalue p (-1 + -1) hp (by decide +kernel) (by decide +kernel)
  obtain ⟨hsum, hproduct⟩ := hpairs p q (-1 + -1) hp hq (by decide +kernel) (by decide +kernel)
    (by decide +kernel)
  obtain ⟨pq, hmul, hequal⟩ := hproduct (by decide +kernel) (by decide)
  exact ⟨p, q, pq, rfl, rfl, heval.trans (by decide +kernel), hsum (by decide +kernel), hmul, hequal⟩

end Poly

end FloatPolynomial
