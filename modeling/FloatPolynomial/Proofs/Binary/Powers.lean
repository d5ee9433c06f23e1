import Mathlib.Tactic.Ring
import FloatPolynomial.Proofs.Binary.Integers

/-!
# Powers of Binary Numbers

What repeated squaring multiplies.  Every product on the way has at most as many copies of the base
as the exponent asks for, so a property of products of copies that one product keeps holds of the
power: `powBySquaring_induction`.  Hence the powers of one are one, those of a zero are zeros, and
the power of an integer is exact whenever it is not too large, because then no square on the way is
too large either.
-/

namespace FloatPolynomial

section Squaring

variable {α : Type} [Mul α] {P : ℕ → α → Prop} {n i j exponent : ℕ} {result square base : α}

/-- The loop multiplies as many copies as its result has and as the squares still ahead have. -/
theorem mulSquares_induction
    (hmul : ∀ i j a b, P i a → P j b → i + j ≤ n → P (i + j) (a * b))
    (hresult : P i result) (hsquare : P j square) (hn : i + 2 * j * exponent = n) :
    P n (mulSquares result square exponent) := by
  fun_induction mulSquares result square exponent generalizing i j with
  | case1 result square =>
    rw [Nat.mul_zero, Nat.add_zero] at hn
    exact hn ▸ hresult
  | case2 result square exponent hne next =>
    rename_i ih
    have hle : 2 * j ≤ 2 * j * exponent := Nat.le_mul_of_pos_right _ (Nat.pos_of_ne_zero hne)
    have hnext : P (j + j) next := hmul j j square square hsquare hsquare (by omega)
    have hsplit : 2 * (exponent / 2) + exponent % 2 = exponent := Nat.div_add_mod ..
    generalize exponent / 2 = half at hsplit ih ⊢
    by_cases hodd : exponent % 2 = 1
    · rw [dif_pos hodd] at ih
      rw [if_pos hodd]
      refine ih (hmul i (j + j) result next hresult hnext (by omega)) hnext ?_
      rw [hodd] at hsplit
      rw [← hn, ← hsplit]
      ring
    · have heven : exponent % 2 = 0 := by omega
      rw [dif_neg hodd] at ih
      rw [if_neg hodd]
      refine ih hresult hnext ?_
      rw [heven, Nat.add_zero] at hsplit
      rw [← hn, ← hsplit]
      ring

/-- What holds of the base and is kept by products of no more copies than the exponent asks for
holds of the power. -/
theorem powBySquaring_induction [One α]
    (hmul : ∀ i j a b, P i a → P j b → i + j ≤ n → P (i + j) (a * b))
    (hbase : P j base) (hpos : 0 < exponent) (hn : j * exponent = n) :
    P n (powBySquaring base exponent) := by
  fun_induction powBySquaring base exponent generalizing j with
  | case1 => exact absurd hpos (Nat.lt_irrefl 0)
  | case2 base exponent hne heven ih =>
    obtain ⟨half, rfl⟩ := Nat.dvd_of_mod_eq_zero heven
    rw [Nat.mul_div_cancel_left _ Nat.two_pos] at ih ⊢
    have hhalf : 0 < half := by omega
    have hle : j ≤ j * half := Nat.le_mul_of_pos_right j hhalf
    rw [Nat.mul_left_comm] at hn
    refine ih (hmul j j base base hbase hbase (by omega)) hhalf ?_
    rw [← hn]
    ring
  | case3 base exponent hne hodd =>
    have hsplit : exponent = 2 * (exponent / 2) + 1 := by omega
    generalize exponent / 2 = half at hsplit ⊢
    refine mulSquares_induction hmul hbase hbase ?_
    rw [← hn, hsplit]
    ring

end Squaring

namespace Binary

variable {f : Format} {x y : Binary f} {n : ℕ}

protected theorem one_pow (n : ℕ) : (1 : Binary f) ^ n = 1 := by
  rcases Nat.eq_zero_or_pos n with rfl | hpos
  · exact pow_zero 1
  · refine powBySquaring_induction (P := fun _ a ↦ a = (1 : Binary f)) ?_ rfl hpos (Nat.one_mul n)
    rintro i j a b rfl rfl -
    exact Binary.mul_one 1

/-- A finite number times a zero is a zero. -/
theorem isZero_mul (hx : x.isFinite = true) (hy : y.isZero = true) : (x * y).isZero = true := by
  obtain ⟨b, rfl⟩ := eq_finite_of_isZero hy
  rcases x with _ | a | ⟨a, m, hm⟩
  · cases hx
  · cases hx
  · rw [mul_finite, Nat.mul_zero, round_zero _ (Nat.two_pow_pos _)]
    rfl

theorem isFinite_of_isZero (h : x.isZero = true) : x.isFinite = true := by
  obtain ⟨a, rfl⟩ := eq_finite_of_isZero h
  rfl

theorem isZero_pow (hx : x.isZero = true) (hpos : 0 < n) : (x ^ n).isZero = true := by
  refine powBySquaring_induction (P := fun _ (a : Binary f) ↦ a.isZero = true) ?_ hx hpos
    (Nat.one_mul n)
  intro i j a b ha hb _
  exact isZero_mul (isFinite_of_isZero ha) hb

/-- The number is the integer `value`, a zero of either sign for zero. -/
structure HasValue (x : Binary f) (value : ℤ) : Prop where
  isInteger : x.isInteger = true
  toInt_eq : x.toInt = value

section HasValue

variable {a b : ℤ}

theorem hasValue_zero : HasValue (0 : Binary f) 0 :=
  ⟨isInteger_zero, toInt_zero⟩

theorem hasValue_one : HasValue (1 : Binary f) 1 :=
  ⟨isInteger_one, toInt_one⟩

theorem HasValue.add (hx : x.HasValue a) (hy : y.HasValue b)
    (hbound : (a + b).natAbs ≤ 2 ^ f.precision) : (x + y).HasValue (a + b) := by
  obtain ⟨hx, rfl⟩ := hx
  obtain ⟨hy, rfl⟩ := hy
  obtain ⟨hinteger, hvalue⟩ := add_of_isInteger hx hy hbound
  exact ⟨hinteger, hvalue⟩

theorem HasValue.mul (hx : x.HasValue a) (hy : y.HasValue b)
    (hbound : (a * b).natAbs ≤ 2 ^ f.precision) : (x * y).HasValue (a * b) := by
  obtain ⟨hx, rfl⟩ := hx
  obtain ⟨hy, rfl⟩ := hy
  obtain ⟨hinteger, hvalue⟩ := mul_of_isInteger hx hy hbound
  exact ⟨hinteger, hvalue⟩

/-- The power of an integer is exact, if that of a bound on its magnitude is not too large. -/
theorem HasValue.pow {radius : ℕ} (hx : x.HasValue a) (hradius : a.natAbs ≤ radius)
    (hpos : 0 < radius) (hbound : radius ^ n ≤ 2 ^ f.precision) : (x ^ n).HasValue (a ^ n) := by
  rcases Nat.eq_zero_or_pos n with rfl | hn
  · rw [pow_zero, Int.pow_zero]
    exact hasValue_one
  · refine powBySquaring_induction (P := fun i (y : Binary f) ↦ y.HasValue (a ^ i)) ?_
      ((Int.pow_one a).symm ▸ hx) hn (Nat.one_mul n)
    intro i j y z hy hz hle
    have hproduct : (a ^ i * a ^ j).natAbs ≤ 2 ^ f.precision := by
      calc
        (a ^ i * a ^ j).natAbs = a.natAbs ^ (i + j) := by rw [← pow_add, Int.natAbs_pow]
        _ ≤ radius ^ (i + j) := Nat.pow_le_pow_left hradius _
        _ ≤ radius ^ n := Nat.pow_le_pow_right hpos hle
        _ ≤ 2 ^ f.precision := hbound
    rw [pow_add]
    exact hy.mul hz hproduct

/-- Numbers of one integer value are equal. -/
theorem HasValue.equal (hx : x.HasValue a) (hy : y.HasValue a) : x.equal y = true := by
  obtain ⟨negative, m, hm, rfl⟩ := eq_finite_of_isInteger hx.isInteger
  obtain ⟨negative', n, hn, rfl⟩ := eq_finite_of_isInteger hy.isInteger
  have hsame : signedUnits negative m = signedUnits negative' n := by
    rw [← toInt_finite negative hm, ← toInt_finite negative' hn, hx.toInt_eq, hy.toInt_eq]
  rw [Binary.equal, signedUnits_mul_natCast, signedUnits_mul_natCast, hsame, beq_self_eq_true]

end HasValue

end Binary

end FloatPolynomial
