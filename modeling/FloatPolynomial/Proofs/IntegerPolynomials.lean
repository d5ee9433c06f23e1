import Mathlib.Algebra.Polynomial.Degree.Operations
import FloatPolynomial.Proofs.Accumulation
import FloatPolynomial.Proofs.Binary.Integers
import FloatPolynomial.Proofs.Products

/-!
# Polynomials with Integer Coefficients

A list of terms whose coefficients are integers stands for an integer polynomial, the sum of its
monomials.  As long as the absolute values of the coefficients add up to no more than the integers
that the format holds, every partial sum is an integer that is held, in whatever order the terms
are added.  So bringing the list into canonical form keeps its polynomial, and does not increase the
sum of the absolute values: `Denotes` carries both through sums, differences and products.

The canonical form of an integer polynomial is unique, which turns identities of integer polynomials
into equalities of lists of terms.
-/

namespace FloatPolynomial

open scoped Polynomial

noncomputable section

variable {f : Format}

/-- All coefficients are integers. -/
def IntegerTerms (terms : List (Term f)) : Prop :=
  ∀ t ∈ terms, t.coefficient.isInteger = true

/-- The integer polynomial that the terms add up to. -/
def toPolynomial (terms : List (Term f)) : ℤ[X] :=
  (terms.map fun t ↦ Polynomial.monomial t.power.toNat t.coefficient.toInt).sum

/-- The sum of the absolute values of integer coefficients. -/
def weight (terms : List (Term f)) : ℕ :=
  (terms.map fun t ↦ t.coefficient.toInt.natAbs).sum

/-- The terms are integer terms that add up to `P`, with absolute values that add up to at most
`bound`. -/
structure Denotes (terms : List (Term f)) (P : ℤ[X]) (bound : ℕ) : Prop where
  integers : IntegerTerms terms
  polynomial : toPolynomial terms = P
  weight_le : weight terms ≤ bound

@[simp]
theorem toPolynomial_nil : toPolynomial ([] : List (Term f)) = 0 := rfl

@[simp]
theorem weight_nil : weight ([] : List (Term f)) = 0 := rfl

@[simp]
theorem toPolynomial_cons (t : Term f) (terms : List (Term f)) :
    toPolynomial (t :: terms) =
      Polynomial.monomial t.power.toNat t.coefficient.toInt + toPolynomial terms := by
  rw [toPolynomial, List.map_cons, List.sum_cons, toPolynomial]

@[simp]
theorem weight_cons (t : Term f) (terms : List (Term f)) :
    weight (t :: terms) = t.coefficient.toInt.natAbs + weight terms := by
  rw [weight, List.map_cons, List.sum_cons, weight]

@[simp]
theorem toPolynomial_append (front back : List (Term f)) :
    toPolynomial (front ++ back) = toPolynomial front + toPolynomial back := by
  rw [toPolynomial, List.map_append, List.sum_append, toPolynomial, toPolynomial]

@[simp]
theorem weight_append (front back : List (Term f)) :
    weight (front ++ back) = weight front + weight back := by
  rw [weight, List.map_append, List.sum_append, weight, weight]

theorem denotes_self {terms : List (Term f)} (h : IntegerTerms terms) :
    Denotes terms (toPolynomial terms) (weight terms) :=
  ⟨h, rfl, Nat.le_refl _⟩

theorem Denotes.cons {t : Term f} {terms : List (Term f)} {P : ℤ[X]} {bound : ℕ}
    (ht : t.coefficient.isInteger = true) (h : Denotes terms P bound) :
    Denotes (t :: terms) (Polynomial.monomial t.power.toNat t.coefficient.toInt + P)
      (t.coefficient.toInt.natAbs + bound) where
  integers := List.forall_mem_cons.mpr ⟨ht, h.integers⟩
  polynomial := by rw [toPolynomial_cons, h.polynomial]
  weight_le := by
    rw [weight_cons]
    exact Nat.add_le_add_left h.weight_le _

theorem Denotes.append {front back : List (Term f)} {P Q : ℤ[X]} {a b : ℕ}
    (hfront : Denotes front P a) (hback : Denotes back Q b) :
    Denotes (front ++ back) (P + Q) (a + b) where
  integers := List.forall_mem_append.mpr ⟨hfront.integers, hback.integers⟩
  polynomial := by rw [toPolynomial_append, hfront.polynomial, hback.polynomial]
  weight_le := by
    rw [weight_append]
    exact Nat.add_le_add hfront.weight_le hback.weight_le

theorem Denotes.mono {terms : List (Term f)} {P : ℤ[X]} {a b : ℕ} (h : Denotes terms P a)
    (hle : a ≤ b) : Denotes terms P b :=
  ⟨h.integers, h.polynomial, h.weight_le.trans hle⟩

/-! ## The steps of the canonical form -/

theorem Denotes.perm {xs ys : List (Term f)} {P : ℤ[X]} {bound : ℕ} (h : Denotes xs P bound)
    (hperm : ys.Perm xs) : Denotes ys P bound where
  integers t ht := h.integers t (hperm.mem_iff.mp ht)
  polynomial := by
    rw [← h.polynomial]
    exact (hperm.map _).sum_eq
  weight_le := by
    rw [weight, (hperm.map _).sum_eq]
    exact h.weight_le

/-- Merging adds integers only, and no sum is too large. -/
theorem denotes_mergeInto {head : Term f} {rest : List (Term f)}
    (h : IntegerTerms (head :: rest)) (hweight : weight (head :: rest) ≤ 2 ^ f.precision) :
    Denotes (mergeInto head rest) (toPolynomial (head :: rest)) (weight (head :: rest)) := by
  induction rest generalizing head with
  | nil => exact denotes_self h
  | cons t rest ih =>
    obtain ⟨hhead, htail⟩ := List.forall_mem_cons.mp h
    obtain ⟨ht, hrest⟩ := List.forall_mem_cons.mp htail
    rw [weight_cons] at hweight
    unfold mergeInto
    split
    · rename_i hpower
      rw [weight_cons] at hweight
      have habs := Int.natAbs_add_le head.coefficient.toInt t.coefficient.toInt
      obtain ⟨hinteger, hvalue⟩ := Binary.add_of_isInteger hhead ht (by omega)
      have hmerged : IntegerTerms (⟨head.coefficient + t.coefficient, head.power⟩ :: rest) :=
        List.forall_mem_cons.mpr ⟨hinteger, hrest⟩
      have hle : weight (⟨head.coefficient + t.coefficient, head.power⟩ :: rest) ≤
          weight (head :: t :: rest) := by
        simp only [weight_cons, hvalue]
        omega
      have hpolynomial : toPolynomial (⟨head.coefficient + t.coefficient, head.power⟩ :: rest) =
          toPolynomial (head :: t :: rest) := by
        simp only [toPolynomial_cons, hvalue, hpower, map_add, add_assoc]
      rw [← hpolynomial]
      apply (ih hmerged _).mono hle
      simp only [weight_cons] at hle ⊢
      omega
    · rw [toPolynomial_cons, weight_cons]
      exact (ih htail (by omega)).cons hhead

theorem denotes_mergeTerms {terms : List (Term f)} (h : IntegerTerms terms)
    (hweight : weight terms ≤ 2 ^ f.precision) :
    Denotes (mergeTerms terms) (toPolynomial terms) (weight terms) := by
  cases terms with
  | nil => exact denotes_self h
  | cons head rest => exact denotes_mergeInto h hweight

/-- Zeros stand for nothing. -/
theorem denotes_dropZeros {terms : List (Term f)} (h : IntegerTerms terms) :
    Denotes (dropZeros terms) (toPolynomial terms) (weight terms) := by
  induction terms with
  | nil => exact denotes_self h
  | cons t rest ih =>
    obtain ⟨ht, hrest⟩ := List.forall_mem_cons.mp h
    rw [dropZeros, List.filter_cons, toPolynomial_cons, weight_cons]
    cases hzero : t.isZero with
    | true =>
      have hvalue : t.coefficient.toInt = 0 := (Binary.isZero_iff_toInt ht).mp hzero
      rw [hvalue, map_zero, zero_add, Int.natAbs_zero, Nat.zero_add]
      exact ih hrest
    | false => exact (ih hrest).cons ht

/-- The canonical form stands for the same integer polynomial. -/
theorem Denotes.canonicalize {terms : List (Term f)} {P : ℤ[X]} {bound : ℕ}
    (h : Denotes terms P bound) (hbound : bound ≤ 2 ^ f.precision) :
    Denotes (canonicalize terms) P bound := by
  have hsorted : Denotes (sortTerms terms) P bound := h.perm (perm_sortTerms terms)
  have hmerged := denotes_mergeTerms hsorted.integers (hsorted.weight_le.trans hbound)
  have hdropped := denotes_dropZeros hmerged.integers
  rw [hmerged.polynomial, hsorted.polynomial] at hdropped
  exact hdropped.mono (hmerged.weight_le.trans hsorted.weight_le)

/-! ## Sums and products -/

theorem Denotes.neg {terms : List (Term f)} {P : ℤ[X]} {bound : ℕ} (h : Denotes terms P bound) :
    Denotes (terms.map fun t ↦ -t) (-P) bound := by
  refine ⟨?_, ?_, ?_⟩
  · intro t ht
    obtain ⟨s, hs, rfl⟩ := List.mem_map.mp ht
    rw [Term.coefficient_neg, Binary.isInteger_neg]
    exact h.integers s hs
  · rw [← h.polynomial, toPolynomial, List.map_map, toPolynomial, List.sum_neg, List.map_map]
    congr 1
    apply List.map_congr_left
    intro t _
    simp only [Function.comp_apply, Term.coefficient_neg, Term.power_neg, Binary.toInt_neg, map_neg]
  · have hweight : weight (terms.map fun t ↦ -t) = weight terms := by
      simp only [weight, List.map_map, Function.comp_def, Term.coefficient_neg, Binary.toInt_neg,
        Int.natAbs_neg]
    rw [hweight]
    exact h.weight_le

/-- A row of a product, whose coefficients are exact as long as its weight is not too large. -/
theorem denotes_row {s : Term f} {terms : List (Term f)} (hs : s.coefficient.isInteger = true)
    (h : IntegerTerms terms) (hfits : ∀ t ∈ terms, s.Fits t)
    (hweight : s.coefficient.toInt.natAbs * weight terms ≤ 2 ^ f.precision) :
    Denotes (terms.map s.product)
      (Polynomial.monomial s.power.toNat s.coefficient.toInt * toPolynomial terms)
      (s.coefficient.toInt.natAbs * weight terms) := by
  induction terms with
  | nil =>
    rw [toPolynomial_nil, mul_zero]
    exact denotes_self h
  | cons t rest ih =>
    obtain ⟨ht, hrest⟩ := List.forall_mem_cons.mp h
    obtain ⟨hfit, hfitsRest⟩ := List.forall_mem_cons.mp hfits
    rw [weight_cons, Nat.mul_add] at hweight ⊢
    have hproduct : (s.coefficient.toInt * t.coefficient.toInt).natAbs ≤ 2 ^ f.precision := by
      rw [Int.natAbs_mul]
      omega
    obtain ⟨hinteger, hvalue⟩ := Binary.mul_of_isInteger hs ht hproduct
    have hrow := (ih hrest hfitsRest (by omega)).cons (t := s.product t) hinteger
    rw [Term.toNat_power_product hfit] at hrow
    simp only [Term.product, hvalue, Int.natAbs_mul] at hrow
    rw [toPolynomial_cons, mul_add, Polynomial.monomial_mul_monomial]
    exact hrow

theorem denotes_pairProducts {left right : List (Term f)} (hleft : IntegerTerms left)
    (hright : IntegerTerms right) (hfits : Poly.PowersFit left right)
    (hweight : weight left * weight right ≤ 2 ^ f.precision) :
    Denotes (Poly.pairProducts left right) (toPolynomial left * toPolynomial right)
      (weight left * weight right) := by
  induction left with
  | nil =>
    rw [toPolynomial_nil, zero_mul]
    exact (denotes_self hleft).mono (Nat.zero_le _)
  | cons s rest ih =>
    obtain ⟨hs, hrest⟩ := List.forall_mem_cons.mp hleft
    obtain ⟨hfit, hfitsRest⟩ := List.forall_mem_cons.mp hfits
    rw [weight_cons, Nat.add_mul] at hweight ⊢
    rw [Poly.pairProducts_cons, toPolynomial_cons, add_mul]
    exact (denotes_row hs hright hfit (by omega)).append (ih hrest hfitsRest (by omega))

namespace Poly

variable {p q r : Poly f} {P Q : ℤ[X]} {a b : ℕ}

theorem denotes_ofTerms {terms : List (Term f)} (h : Denotes terms P a)
    (hbound : a ≤ 2 ^ f.precision) : Denotes (ofTerms terms).terms P a :=
  h.canonicalize hbound

theorem denotes_add (hp : Denotes p.terms P a) (hq : Denotes q.terms Q b)
    (hbound : a + b ≤ 2 ^ f.precision) : Denotes (p + q).terms (P + Q) (a + b) :=
  denotes_ofTerms (hp.append hq) hbound

theorem denotes_sub (hp : Denotes p.terms P a) (hq : Denotes q.terms Q b)
    (hbound : a + b ≤ 2 ^ f.precision) : Denotes (p - q).terms (P - Q) (a + b) := by
  have hneg : Denotes (-q).terms (-Q) b := by
    rw [terms_neg]
    exact hq.neg
  rw [sub_def, sub_eq_add_neg]
  exact denotes_add hp hneg hbound

theorem denotes_mul (hp : Denotes p.terms P a) (hq : Denotes q.terms Q b)
    (hbound : a * b ≤ 2 ^ f.precision) (h : p.mul q = .ok r) : Denotes r.terms (P * Q) (a * b) := by
  obtain ⟨hfits, rfl⟩ := mul_eq_ok_iff.mp h
  have hle := Nat.mul_le_mul hp.weight_le hq.weight_le
  have hproducts := denotes_pairProducts hp.integers hq.integers hfits (hle.trans hbound)
  rw [hp.polynomial, hq.polynomial] at hproducts
  exact denotes_ofTerms (hproducts.mono hle) hbound

end Poly

theorem coeff_toPolynomial (power : UInt32) (terms : List (Term f)) :
    (toPolynomial terms).coeff power.toNat =
      ((coefficientsAt power terms).map Binary.toInt).sum := by
  induction terms with
  | nil => rfl
  | cons t rest ih =>
    rw [toPolynomial_cons, Polynomial.coeff_add, ih, coefficientsAt_cons, Polynomial.coeff_monomial]
    simp only [UInt32.toNat_inj]
    split
    · rw [List.map_cons, List.sum_cons]
    · rw [zero_add]

theorem coeff_toPolynomial_of_le (terms : List (Term f)) {n : ℕ} (h : UInt32.size ≤ n) :
    (toPolynomial terms).coeff n = 0 := by
  induction terms with
  | nil => rfl
  | cons t rest ih =>
    have hne : t.power.toNat ≠ n := Nat.ne_of_lt (t.power.toNat_lt_size.trans_le h)
    rw [toPolynomial_cons, Polynomial.coeff_add, ih, Polynomial.coeff_monomial, if_neg hne, add_zero]

namespace Poly

/-- The coefficients are those of an integer polynomial, exactly; where it has none, there is no
term. -/
structure Represents (p : Poly f) (P : ℤ[X]) : Prop where
  isInteger : ∀ power, (p.coefficient power).isInteger = true
  toInt_coefficient : ∀ power, (p.coefficient power).toInt = P.coeff power.toNat
  coeff_ne_zero : ∀ t ∈ p.terms, P.coeff t.power.toNat ≠ 0
  coeff_eq_zero : ∀ n, UInt32.size ≤ n → P.coeff n = 0

theorem isInteger_coefficient {p : Poly f} (h : IntegerTerms p.terms) (power : UInt32) :
    (p.coefficient power).isInteger = true := by
  cases hzero : (p.coefficient power).isZero with
  | true => rw [p.noNegativeZero_coefficient power hzero, Binary.isInteger_zero]
  | false => exact h ⟨p.coefficient power, power⟩ (mem_terms_iff.mpr ⟨rfl, hzero⟩)

theorem toInt_coefficient (p : Poly f) (power : UInt32) :
    (p.coefficient power).toInt = (toPolynomial p.terms).coeff power.toNat := by
  rw [coeff_toPolynomial, p.coefficientsAt_terms, termOf_eq]
  cases hzero : (p.coefficient power).isZero with
  | true =>
    rw [p.noNegativeZero_coefficient power hzero, Binary.toInt_zero]
    rfl
  | false => exact (List.sum_singleton ..).symm

theorem represents_of_denotes {p : Poly f} {P : ℤ[X]} {bound : ℕ} (h : Denotes p.terms P bound) :
    p.Represents P := by
  obtain ⟨hintegers, rfl, -⟩ := h
  refine ⟨isInteger_coefficient hintegers, p.toInt_coefficient, ?_,
    fun n ↦ coeff_toPolynomial_of_le p.terms⟩
  intro t ht hzero
  rw [← toInt_coefficient, coefficient_of_mem ht, ← Binary.isZero_iff_toInt (hintegers t ht)] at hzero
  exact Bool.false_ne_true ((p.canonical.nonzero t ht).symm.trans hzero)

/-- An integer polynomial is represented once. -/
theorem Represents.unique {p q : Poly f} {P : ℤ[X]} (hp : p.Represents P) (hq : q.Represents P) :
    p = q := by
  apply ext_coefficient
  intro power
  have hvalue : (p.coefficient power).toInt = (q.coefficient power).toInt := by
    rw [hp.toInt_coefficient, hq.toInt_coefficient]
  by_cases hzero : (p.coefficient power).toInt = 0
  · have hpzero := (Binary.isZero_iff_toInt (hp.isInteger power)).mpr hzero
    have hqzero := (Binary.isZero_iff_toInt (hq.isInteger power)).mpr (hvalue ▸ hzero)
    rw [p.noNegativeZero_coefficient power hpzero, q.noNegativeZero_coefficient power hqzero]
  · exact Binary.eq_of_toInt_eq (hp.isInteger power) (hq.isInteger power) hvalue hzero

end Poly

end

end FloatPolynomial
