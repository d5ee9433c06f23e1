import Mathlib.Data.Nat.BinaryRec
import FloatPolynomial.Proofs.Binary.Magnitudes
import FloatPolynomial.Proofs.Overflow
import FloatPolynomial.Proofs.Scalars

/-!
# Powers by Repeated Squaring

What repeated squaring multiplies.  Every polynomial on the way is a product of copies of the base,
`IsPower`, and every product that is tried has at most as many copies as the exponent asks for:
`outcome_mulPower` carries this through the binary digits of the exponent.  What a power is, and
when it is refused, then follows from what one product does.

The degree of a product of copies is at most so many times the degree of the base, so a power whose
degree fits is never refused.  It is exactly that if the leading coefficient is not less than one in
magnitude, because then no product of leading coefficients is rounded to zero.
-/

namespace FloatPolynomial

namespace Poly

variable {f : Format} {p q r : Poly f}

section Digits

variable (result base : Poly f) {n : ℕ}

@[simp]
theorem mulPower_zero : mulPower result base 0 = .ok result := by
  rw [mulPower, if_pos rfl]

theorem mulPower_one : mulPower result base 1 = result.mul base := by
  rw [mulPower]
  exact bind_pure (result.mul base)

theorem mulPower_two_mul (h : 0 < n) :
    mulPower result base (2 * n) = (do mulPower result (← base.mul base) n) := by
  have hdouble : 2 * n ≠ 0 := by omega
  have heven : 2 * n % 2 ≠ 1 := by omega
  have hhalf : 2 * n / 2 = n := by omega
  rw [mulPower, if_neg hdouble, if_neg heven, hhalf]
  exact if_neg (Nat.ne_of_gt h)

theorem mulPower_two_mul_add_one (h : 0 < n) :
    mulPower result base (2 * n + 1) = (do
      let result ← result.mul base
      mulPower result (← base.mul base) n) := by
  have hodd : (2 * n + 1) % 2 = 1 := by omega
  have hhalf : (2 * n + 1) / 2 = n := by omega
  rw [mulPower, if_neg (Nat.succ_ne_zero _), if_pos hodd, hhalf]
  simp only [if_neg (Nat.ne_of_gt h)]

end Digits

/-- A product of `n` copies of a polynomial, in whatever order they are multiplied. -/
inductive IsPower (p : Poly f) : ℕ → Poly f → Prop
  | one : IsPower p 0 1
  | self : IsPower p 1 p
  | mul {i j : ℕ} {q r product : Poly f} (hq : IsPower p i q) (hr : IsPower p j r)
      (hmul : q.mul r = .ok product) : IsPower p (i + j) product

/-- What may come of multiplying `n` copies: their product, or the refusal of a product of no more
than `n` of them. -/
def PowerOutcome (p : Poly f) (n : ℕ) : Except PowerOverflow (Poly f) → Prop
  | .ok q => IsPower p n q
  | .error e => ∃ i j q r, IsPower p i q ∧ IsPower p j r ∧ i + j ≤ n ∧ q.mul r = .error e

theorem IsPower.outcome_bind {i j n : ℕ} (hq : IsPower p i q) (hr : IsPower p j r)
    (hle : i + j ≤ n) {next : Poly f → Except PowerOverflow (Poly f)}
    (hnext : ∀ product, IsPower p (i + j) product → PowerOutcome p n (next product)) :
    PowerOutcome p n (q.mul r >>= next) := by
  cases hmul : q.mul r with
  | ok product => exact hnext product (hq.mul hr hmul)
  | error e => exact ⟨i, j, q, r, hq, hr, hle, hmul⟩

theorem IsPower.outcome_mul {i j : ℕ} (hq : IsPower p i q) (hr : IsPower p j r) :
    PowerOutcome p (i + j) (q.mul r) := by
  rw [← bind_pure (q.mul r)]
  exact hq.outcome_bind hr (Nat.le_refl _) fun _ hproduct ↦ hproduct

/-- The loop multiplies as many copies as its result has and its base has in each digit left. -/
theorem outcome_mulPower {i j n exponent : ℕ} {result base : Poly f} (hresult : IsPower p i result)
    (hbase : IsPower p j base) (hn : i + j * exponent = n) :
    PowerOutcome p n (mulPower result base exponent) := by
  induction exponent using Nat.binaryRecFromOne generalizing i j result base with
  | zero =>
    rw [mulPower_zero]
    exact hn ▸ hresult
  | one =>
    rw [mulPower_one, ← hn, Nat.mul_one]
    exact hresult.outcome_mul hbase
  | bit digit half hhalf ih =>
    have hpos : 0 < half := Nat.pos_of_ne_zero hhalf
    have hle : j ≤ j * half := Nat.le_mul_of_pos_right j hpos
    cases digit with
    | false =>
      rw [Nat.bit_false_apply] at hn ⊢
      rw [Nat.mul_left_comm] at hn
      rw [mulPower_two_mul result base hpos]
      refine hbase.outcome_bind hbase (by omega) fun square hsquare ↦ ih hresult hsquare ?_
      rw [Nat.add_mul]
      omega
    | true =>
      rw [Nat.bit_true_apply] at hn ⊢
      rw [Nat.mul_add, Nat.mul_left_comm, Nat.mul_one] at hn
      rw [mulPower_two_mul_add_one result base hpos]
      refine hresult.outcome_bind hbase (by omega) fun product hproduct ↦ ?_
      refine hbase.outcome_bind hbase (by omega) fun square hsquare ↦ ih hproduct hsquare ?_
      rw [Nat.add_mul]
      omega

theorem outcome_pow (p : Poly f) (n : ℕ) : PowerOutcome p n (p.pow n) :=
  outcome_mulPower .one .self (by rw [Nat.zero_add, Nat.one_mul])

/-- Multiplying by one copy after the other. -/
theorem outcome_foldlM_replicate {i : ℕ} (hq : IsPower p i q) (n : ℕ) :
    PowerOutcome p (i + n) ((List.replicate n p).foldlM mul q) := by
  induction n generalizing i q with
  | zero => exact hq
  | succ n ih =>
    rw [List.replicate_succ, List.foldlM_cons]
    refine hq.outcome_bind .self (by omega) fun product hproduct ↦ ?_
    rw [Nat.add_comm n, ← Nat.add_assoc]
    exact ih hproduct

theorem outcome_product_replicate (p : Poly f) (n : ℕ) :
    PowerOutcome p n (product (List.replicate n p)) := by
  have houtcome := outcome_foldlM_replicate (p := p) .one n
  rwa [Nat.zero_add] at houtcome

theorem scale_one (p : Poly f) : p.scale 1 = p := by
  have hterms : p.terms.map (fun t ↦ (⟨t.coefficient * 1, t.power⟩ : Term f)) = p.terms :=
    List.map_id'' (fun t ↦ congrArg (Term.mk · t.power) (Binary.mul_one t.coefficient)) _
  rw [scale, Binary.isZero_one, if_neg Bool.false_ne_true, hterms, ofTerms_terms]

protected theorem pow_one (p : Poly f) : p.pow 1 = .ok p := by
  rw [pow, mulPower_one, one_def, constant_mul, scale_one]

/-- An even power is a power of the square. -/
theorem pow_two_mul (p : Poly f) {n : ℕ} (h : 0 < n) :
    p.pow (2 * n) = (do (← p.mul p).pow n) :=
  mulPower_two_mul 1 p h

theorem terms_one : (1 : Poly f).terms = [⟨1, 0⟩] := by
  rw [one_def, terms_constant, termOf_eq, Binary.isZero_one]
  rfl

theorem degree_one : (1 : Poly f).degree = 0 :=
  degree_of_cons terms_one

theorem IsPower.toNat_degree_le {n : ℕ} (h : IsPower p n q) :
    q.degree.toNat ≤ n * p.degree.toNat := by
  induction h with
  | one => rw [degree_one, UInt32.toNat_zero]; exact Nat.zero_le _
  | self => exact Nat.le_of_eq (Nat.one_mul _).symm
  | mul hq hr hmul ihq ihr =>
    rw [Nat.add_mul]
    exact Nat.le_trans (toNat_degree_mul_le hmul) (Nat.add_le_add ihq ihr)

/-- Copies whose degrees fit together have a product. -/
theorem PowerOutcome.exists_eq_ok {n : ℕ} {outcome : Except PowerOverflow (Poly f)}
    (h : PowerOutcome p n outcome) (hdegree : n * p.degree.toNat < UInt32.size) :
    ∃ q, outcome = .ok q ∧ IsPower p n q := by
  cases outcome with
  | ok q => exact ⟨q, rfl, h⟩
  | error e =>
    obtain ⟨i, j, q, r, hq, hr, hle, hmul⟩ := h
    have hrefused := (mul_eq_error_iff.mp hmul).2.2.1
    have hfits : UInt32.size ≤ n * p.degree.toNat := by
      calc
        UInt32.size ≤ q.degree.toNat + r.degree.toNat := hrefused
        _ ≤ i * p.degree.toNat + j * p.degree.toNat :=
          Nat.add_le_add hq.toNat_degree_le hr.toNat_degree_le
        _ = (i + j) * p.degree.toNat := (Nat.add_mul ..).symm
        _ ≤ n * p.degree.toNat := Nat.mul_le_mul_right _ hle
    exact absurd hdegree (Nat.not_lt.mpr hfits)

/-- Leading coefficients that are not less than one do not vanish in any product of copies. -/
theorem IsPower.exists_leadingTerm? {n : ℕ} {lead : Term f} (h : IsPower p n q)
    (hlead : p.leadingTerm? = some lead) (hone : lead.coefficient.ReachesOne) :
    ∃ t, q.leadingTerm? = some t ∧ t.coefficient.ReachesOne ∧
      q.degree.toNat = n * p.degree.toNat := by
  induction h with
  | one =>
    refine ⟨⟨1, 0⟩, leadingTerm?_of_cons terms_one, Binary.reachesOne_one, ?_⟩
    rw [degree_one, Nat.zero_mul, UInt32.toNat_zero]
  | self => exact ⟨lead, hlead, hone, (Nat.one_mul _).symm⟩
  | mul hq hr hmul ihq ihr =>
    obtain ⟨s, hs, hsone, hqdegree⟩ := ihq
    obtain ⟨t, ht, htone, hrdegree⟩ := ihr
    have hproduct := hsone.mul htone
    refine ⟨_, leadingTerm?_mul hmul hs ht hproduct.isZero, hproduct, ?_⟩
    rw [degree_mul hmul hs ht hproduct.isZero, toNat_degree_add_degree hmul hs ht, hqdegree,
      hrdegree, Nat.add_mul]

/-- A power whose degree fits into 32 bits is not refused, and if one is refused, then for a product
of no more copies than the exponent asks for.  Where the leading coefficient is not a number or not
less than one in magnitude, exactly those powers are refused whose degree does not fit. -/
theorem pow_overflow (p : Poly f) (n : ℕ) :
    (n * p.degree.toNat < UInt32.size → ∃ q, p.pow n = .ok q) ∧
    (∀ e, p.pow n = .error e →
      ∃ i j q r, IsPower p i q ∧ IsPower p j r ∧ i + j ≤ n ∧ q.mul r = .error e) ∧
    ∀ lead, p.leadingTerm? = some lead → lead.coefficient.ReachesOne →
      ((∃ e, p.pow n = .error e) ↔ UInt32.size ≤ n * p.degree.toNat) := by
  have houtcome := outcome_pow p n
  have hfits (hdegree : n * p.degree.toNat < UInt32.size) : ∃ q, p.pow n = .ok q := by
    obtain ⟨q, hpow, -⟩ := houtcome.exists_eq_ok hdegree
    exact ⟨q, hpow⟩
  refine ⟨hfits, fun e he ↦ ?_, fun lead hlead hone ↦ ?_⟩
  · rw [he] at houtcome
    exact houtcome
  · rw [exists_eq_error_iff, ← Nat.not_lt, not_iff_not]
    constructor
    · rintro ⟨q, hpow⟩
      rw [hpow] at houtcome
      obtain ⟨-, -, -, hdegree⟩ := IsPower.exists_leadingTerm? houtcome hlead hone
      rw [← hdegree]
      exact q.degree.toNat_lt_size
    · exact hfits

/-- The square of `x ^ 2147483647 + 1` is the greatest square there is; one power more is refused. -/
theorem pow_overflow_greatest_power :
    ∃ p : Poly .single, p.terms = [⟨1, 2147483647⟩, ⟨1, 0⟩] ∧ (∃ q, p.pow 2 = .ok q) ∧
      ∃ e, p.pow 3 = .error e := by
  let p : Poly .single := ⟨[⟨1, 2147483647⟩, ⟨1, 0⟩], by decide +kernel, by decide +kernel⟩
  exact ⟨p, rfl, (pow_overflow p 2).1 (by decide),
    ((pow_overflow p 3).2.2 ⟨1, 2147483647⟩ rfl Binary.reachesOne_one).mpr (by decide)⟩

end Poly

end FloatPolynomial
