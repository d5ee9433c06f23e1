import Mathlib.Algebra.BigOperators.Group.List.Basic
import FloatPolynomial.Poly.Evaluation
import FloatPolynomial.Proofs.Binary.Powers
import FloatPolynomial.Proofs.Equality

/-!
# Evaluation at Any Number

Horner's scheme takes the differences of neighbouring powers as 32-bit words, which is only right
because the powers descend.  One step of `Poly.hornerLoop` keeps that the differences so far and the
power reached add up to the degree, and no test fails.

The scheme begins with zero times `x ^ 0`, which leaves the leading coefficient as it is, whatever
`x` is: `Poly.eval_of_cons`.  Hence a single term is evaluated as a term, the value at one is the sum
of the coefficients, and the value at either zero is the constant coefficient as long as no
coefficient is infinite or a non-number.
-/

namespace FloatPolynomial

variable {f : Format}

theorem powerGap_of_le {power next : UInt32} (h : next ≤ power) :
    powerGap power next = .ok (power - next) :=
  if_pos h

theorem toNat_powerGap {power next : UInt32} (h : next ≤ power) :
    (power - next).toNat = power.toNat - next.toNat :=
  UInt32.toNat_sub_of_le _ _ h

namespace HornerState

/-- The differences so far and the power reached. -/
def descent (state : HornerState f) : ℕ :=
  (state.gaps.map UInt32.toNat).sum + state.power.toNat

/-- A step to a power that is not greater fails no test and keeps the sum of all differences and the
power. -/
theorem exists_step_eq (x : Binary f) (state : HornerState f) {t : Term f}
    (h : t.power ≤ state.power) :
    ∃ next, step x state t = .ok next ∧ next.power = t.power ∧
      next.result = state.result * x ^ (state.power.toNat - t.power.toNat) + t.coefficient ∧
      next.gaps.length = state.gaps.length + 1 ∧ next.descent = state.descent := by
  refine ⟨⟨state.result * x ^ (state.power - t.power).toNat + t.coefficient, t.power,
    state.gaps ++ [state.power - t.power]⟩, ?_, rfl, ?_, ?_, ?_⟩
  · rw [step, powerGap_of_le h]
    rfl
  · rw [toNat_powerGap h]
  · rw [List.length_append, List.length_singleton]
  · have hle := UInt32.le_iff_toNat_le.mp h
    simp only [descent, List.map_append, List.sum_append, List.map_singleton, List.sum_singleton,
      toNat_powerGap h]
    omega

/-- The loop over terms of descending powers. -/
theorem exists_foldlM_step_eq (x : Binary f) (state : HornerState f) {terms : List (Term f)}
    (hdescending : terms.Pairwise fun s t ↦ t.power < s.power)
    (hle : ∀ t ∈ terms, t.power ≤ state.power) :
    ∃ final, terms.foldlM (step x) state = .ok final ∧
      final.value x = horner x state.result state.power terms ∧
      final.gaps.length = state.gaps.length + terms.length ∧ final.descent = state.descent := by
  induction terms generalizing state with
  | nil => exact ⟨state, rfl, rfl, rfl, rfl⟩
  | cons t rest ih =>
    obtain ⟨hhead, hrest⟩ := List.pairwise_cons.mp hdescending
    obtain ⟨next, hstep, hpower, hresult, hlength, hdescent⟩ :=
      exists_step_eq x state (hle t List.mem_cons_self)
    have hbelow : ∀ s ∈ rest, s.power ≤ next.power := by
      intro s hs
      rw [hpower]
      exact UInt32.le_of_lt (hhead s hs)
    obtain ⟨final, hloop, hvalue, hfinal, hsame⟩ := ih next hrest hbelow
    refine ⟨final, ?_, ?_, ?_, hsame.trans hdescent⟩
    · rw [List.foldlM_cons, hstep]
      exact hloop
    · rw [hvalue, horner, hresult, hpower]
    · rw [hfinal, hlength, List.length_cons]
      omega

end HornerState

namespace Poly

/-- No difference of powers is negative, and together they lead down from the degree. -/
theorem exists_hornerLoop_eq (p : Poly f) (x : Binary f) :
    ∃ final, p.hornerLoop x = .ok final ∧ final.value x = p.eval x ∧
      final.gaps.length = p.terms.length ∧ final.descent = p.degree.toNat := by
  obtain ⟨final, hloop, hvalue, hlength, hdescent⟩ :=
    HornerState.exists_foldlM_step_eq x ⟨0, p.degree, []⟩ p.canonical.descending
      fun t ↦ power_le_degree
  refine ⟨final, hloop, hvalue, ?_, ?_⟩
  · rw [hlength, List.length_nil, Nat.zero_add]
  · rw [hdescent, HornerState.descent, List.map_nil, List.sum_nil, Nat.zero_add]

section Cons

variable {p : Poly f} {t : Term f} {rest : List (Term f)}

theorem eval_of_nil (h : p.terms = []) (x : Binary f) : p.eval x = 0 := by
  rw [eval, h, horner, degree, leadingTerm?, h]
  exact (congrArg (0 * ·) (Binary.pow_zero x)).trans (Binary.mul_one 0)

/-- The scheme begins with the leading coefficient. -/
theorem eval_of_cons (h : p.terms = t :: rest) (x : Binary f) :
    p.eval x = horner x t.coefficient t.power rest := by
  have hnonzero : t.coefficient.isZero = false := p.canonical.nonzero t (h ▸ List.mem_cons_self)
  rw [eval, h, horner, degree_of_cons h, Nat.sub_self, Binary.pow_zero, Binary.mul_one,
    Binary.add_of_isZero_left Binary.isZero_zero hnonzero]

/-- A single term has the value of the term. -/
theorem eval_of_singleton (h : p.terms = [t]) (x : Binary f) : p.eval x = t.eval x := by
  rw [eval_of_cons h, horner, Term.eval]

end Cons

theorem horner_one (result : Binary f) (power : UInt32) (terms : List (Term f)) :
    horner 1 result power terms = (terms.map Term.coefficient).foldl (· + ·) result := by
  induction terms generalizing result power with
  | nil =>
    rw [horner, Binary.one_pow, Binary.mul_one]
    rfl
  | cons t rest ih => rw [horner, Binary.one_pow, Binary.mul_one, ih, List.map_cons, List.foldl_cons]

theorem eval_one (p : Poly f) :
    p.eval 1 = (leftSum (p.terms.map Term.coefficient)).getD 0 := by
  cases h : p.terms with
  | nil => exact eval_of_nil h 1
  | cons t rest =>
    rw [eval_of_cons h, horner_one]
    rfl

/-! ## The value at zero -/

section Zero

variable {p : Poly f} {x : Binary f}

/-- At a zero every step forgets what was before, so the term of the least power is left. -/
theorem exists_horner_of_isZero (hx : x.isZero = true) {t : Term f} {rest : List (Term f)}
    (hcanonical : Canonical (t :: rest))
    (hfinite : ∀ s ∈ t :: rest, s.coefficient.isFinite = true) :
    ∃ least ∈ t :: rest, (∀ s ∈ t :: rest, least.power ≤ s.power) ∧
      horner x t.coefficient t.power rest = least.eval x := by
  induction rest generalizing t with
  | nil =>
    refine ⟨t, List.mem_singleton_self t, ?_, rfl⟩
    rw [List.forall_mem_singleton]
    exact UInt32.le_refl _
  | cons s rest ih =>
    obtain ⟨hhead, htail⟩ := List.pairwise_cons.mp hcanonical.descending
    obtain ⟨-, hnonzero⟩ := List.forall_mem_cons.mp hcanonical.nonzero
    obtain ⟨ht, hfiniteTail⟩ := List.forall_mem_cons.mp hfinite
    have hlt := UInt32.lt_iff_toNat_lt.mp (hhead s List.mem_cons_self)
    have hs : s.coefficient.isZero = false := hnonzero s List.mem_cons_self
    have hgap : (t.coefficient * x ^ (t.power.toNat - s.power.toNat)).isZero = true :=
      Binary.isZero_mul ht (Binary.isZero_pow hx (Nat.sub_pos_of_lt hlt))
    obtain ⟨least, hmem, hleast, hvalue⟩ := ih ⟨htail, hnonzero⟩ hfiniteTail
    refine ⟨least, List.mem_cons_of_mem t hmem, ?_, ?_⟩
    · rw [List.forall_mem_cons]
      exact ⟨UInt32.le_of_lt (hhead least hmem), hleast⟩
    · rw [horner, Binary.add_of_isZero_left hgap hs, hvalue]

/-- A constant term is the value at a zero. -/
theorem eval_of_isZero_of_mem (hx : x.isZero = true)
    (hfinite : ∀ t ∈ p.terms, t.coefficient.isFinite = true)
    (hconstant : ∃ t ∈ p.terms, t.power = 0) : p.eval x = p.coefficient 0 := by
  obtain ⟨t, ht, hpower⟩ := hconstant
  obtain ⟨lead, rest, hterms⟩ := List.exists_cons_of_ne_nil (List.ne_nil_of_mem ht)
  obtain ⟨least, hmem, hleast, hvalue⟩ :=
    exists_horner_of_isZero hx (hterms ▸ p.canonical) (hterms ▸ hfinite)
  have hzero : least.power = 0 := by
    have hle := hleast t (hterms ▸ ht)
    rw [hpower] at hle
    exact UInt32.le_zero_iff.mp hle
  calc
    p.eval x = least.eval x := by rw [eval_of_cons hterms, hvalue]
    _ = least.coefficient := by
      rw [Term.eval, hzero, UInt32.toNat_zero, Binary.pow_zero, Binary.mul_one]
    _ = p.coefficient 0 := by rw [← coefficient_of_mem (hterms ▸ hmem), hzero]

/-- Without a constant term the value at a zero is a zero. -/
theorem isZero_eval_of_isZero (hx : x.isZero = true)
    (hfinite : ∀ t ∈ p.terms, t.coefficient.isFinite = true)
    (hconstant : ¬∃ t ∈ p.terms, t.power = 0) :
    (p.eval x).isZero = true ∧ (p.coefficient 0).isZero = true := by
  constructor
  · cases hterms : p.terms with
    | nil =>
      rw [eval_of_nil hterms]
      exact Binary.isZero_zero
    | cons lead rest =>
      obtain ⟨least, hmem, -, hvalue⟩ :=
        exists_horner_of_isZero hx (hterms ▸ p.canonical) (hterms ▸ hfinite)
      have hmem' : least ∈ p.terms := hterms ▸ hmem
      have hpos : 0 < least.power.toNat := by
        refine Nat.pos_of_ne_zero fun hzero ↦ hconstant ⟨least, hmem', ?_⟩
        exact UInt32.toNat_inj.mp hzero
      rw [eval_of_cons hterms, hvalue, Term.eval]
      exact Binary.isZero_mul (hfinite least hmem') (Binary.isZero_pow hx hpos)
  · refine Decidable.byContradiction fun hnonzero ↦ hconstant ?_
    exact ⟨⟨p.coefficient 0, 0⟩, mem_terms_iff.mpr ⟨rfl, Bool.eq_false_iff.mpr hnonzero⟩, rfl⟩

end Zero

/-- Whatever the coefficients and the argument are, no difference of powers in Horner's scheme is
negative, and all of them and the last power add up to the degree; a single term has the value of the
term; and the value at one is the sum of the coefficients from the highest power down.  If all
coefficients are finite, the values at both zeros are equal to the constant coefficient, and are the
constant coefficient itself where it has a term. -/
theorem eval_safe_consistent (p : Poly f) :
    (∀ x, ∃ final, p.hornerLoop x = .ok final ∧
      final.result * x ^ final.power.toNat = p.eval x ∧ final.gaps.length = p.terms.length ∧
      (final.gaps.map UInt32.toNat).sum + final.power.toNat = p.degree.toNat) ∧
    (∀ t, p.terms = [t] → ∀ x, p.eval x = t.eval x) ∧
    p.eval 1 = (leftSum (p.terms.map Term.coefficient)).getD 0 ∧
    ((∀ t ∈ p.terms, t.coefficient.isFinite = true) →
      (p.eval 0).equal (p.eval (-0)) = true ∧ (p.eval 0).equal (p.coefficient 0) = true ∧
      (p.eval (-0)).equal (p.coefficient 0) = true ∧
      ((∃ t ∈ p.terms, t.power = 0) →
        p.eval 0 = p.coefficient 0 ∧ p.eval (-0) = p.coefficient 0)) := by
  refine ⟨p.exists_hornerLoop_eq, fun t h ↦ eval_of_singleton h, p.eval_one, fun hfinite ↦ ?_⟩
  have hneg : (-0 : Binary f).isZero = true := by rw [Binary.isZero_neg, Binary.isZero_zero]
  by_cases hconstant : ∃ t ∈ p.terms, t.power = 0
  · have hpositive := eval_of_isZero_of_mem Binary.isZero_zero hfinite hconstant
    have hnegative := eval_of_isZero_of_mem hneg hfinite hconstant
    have hnumber : (p.coefficient 0).equal (p.coefficient 0) = true := by
      obtain ⟨t, ht, hpower⟩ := hconstant
      rw [Binary.equal_self_iff, ← hpower, coefficient_of_mem ht]
      intro hnan
      have hfalse := hfinite t ht
      rw [hnan] at hfalse
      cases hfalse
    rw [hpositive, hnegative]
    exact ⟨hnumber, hnumber, hnumber, fun _ ↦ ⟨rfl, rfl⟩⟩
  · obtain ⟨hpositive, hcoefficient⟩ := isZero_eval_of_isZero Binary.isZero_zero hfinite hconstant
    obtain ⟨hnegative, -⟩ := isZero_eval_of_isZero hneg hfinite hconstant
    exact ⟨Binary.equal_of_isZero hpositive hnegative,
      Binary.equal_of_isZero hpositive hcoefficient,
      Binary.equal_of_isZero hnegative hcoefficient, fun h ↦ absurd h hconstant⟩

/-- The highest power above a constant term, and a single infinite term at zero. -/
theorem eval_safe_consistent_greatest_power :
    ∃ p q : Poly .single, p.terms = [⟨-1, 4294967295⟩, ⟨1, 0⟩] ∧ q.terms = [⟨.infinite true, 2⟩] ∧
      p.eval 0 = p.coefficient 0 ∧ p.eval (-0) = p.coefficient 0 ∧
      q.eval 0 = (⟨.infinite true, 2⟩ : Term .single).eval 0 := by
  let p : Poly .single := ⟨[⟨-1, 4294967295⟩, ⟨1, 0⟩], by decide +kernel, by decide +kernel⟩
  let q : Poly .single := ⟨[⟨.infinite true, 2⟩], by decide +kernel, by decide +kernel⟩
  have hfinite : ∀ t ∈ p.terms, t.coefficient.isFinite = true := by decide +kernel
  obtain ⟨-, -, -, hzero⟩ := eval_safe_consistent p
  obtain ⟨-, hsingle, -⟩ := eval_safe_consistent q
  obtain ⟨-, -, -, hconstant⟩ := hzero hfinite
  obtain ⟨hpositive, hnegative⟩ := hconstant ⟨⟨1, 0⟩, by decide +kernel, rfl⟩
  exact ⟨p, q, rfl, rfl, hpositive, hnegative, hsingle _ rfl 0⟩

end Poly

end FloatPolynomial
