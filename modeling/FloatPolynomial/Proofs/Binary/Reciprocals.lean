import FloatPolynomial.Proofs.Binary.Integers
import FloatPolynomial.Proofs.Binary.RelativeErrors
import FloatPolynomial.Proofs.Decimal.Nearest

/-!
# Rounded Reciprocals

An integer times its rounded reciprocal differs from one by at most `2 ^ -precision`.  So if a
product of two integers is exact and is multiplied by the reciprocal of one of them, the result is
within a unit in the last place of the other one.  It is that integer if the first product is near
enough to one, and the reciprocal of a power of two is exact.
-/

namespace FloatPolynomial

variable {f : Format}

namespace Binary

/-- The worth of the last place of a number. -/
def ulp : Binary f → ℚ
  | finite _ units _ => 2 ^ f.place units / 2 ^ f.scale
  | _ => 0

/-- The number `y` is `x`, but for at most one unit in the last place. -/
structure WithinUlp (x y : Binary f) : Prop where
  isFinite : y.isFinite = true
  isZero : y.isZero = false
  isNegative : y.isNegative = x.isNegative
  abs_sub_le : |y.value - x.value| ≤ x.ulp

/-- An integer times its rounded reciprocal differs from one by at most `2 ^ -precision`. -/
theorem abs_mul_reciprocal_sub_le (hscale : 2 * f.precision ≤ f.scale) {magnitude : ℕ}
    (hpos : 0 < magnitude) (h : magnitude ≤ 2 ^ f.precision) :
    |(magnitude * roundedUnits f (2 ^ f.scale) magnitude : ℚ) - 2 ^ f.scale| * 2 ^ f.precision ≤
      2 ^ f.scale := by
  have hmagnitude : (0 : ℚ) < magnitude := Nat.cast_pos.mpr hpos
  have hnormal : 2 ^ (f.precision - 1) ≤ 2 ^ f.scale / magnitude := by
    rw [Nat.le_div_iff_mul_le hpos]
    calc
      2 ^ (f.precision - 1) * magnitude ≤ 2 ^ f.precision * 2 ^ f.precision :=
        Nat.mul_le_mul (Nat.pow_le_pow_right (by decide) (Nat.sub_le _ _)) h
      _ = 2 ^ (2 * f.precision) := by rw [← Nat.pow_add, Nat.two_mul]
      _ ≤ 2 ^ f.scale := Nat.pow_le_pow_right (by decide) hscale
  have herror := abs_sub_roundedUnits_mul_le hpos hnormal
  rw [abs_div_sub hpos, div_mul_eq_mul_div, div_le_div_iff_of_pos_right hmagnitude] at herror
  push_cast at herror
  rw [abs_sub_comm, mul_comm (magnitude : ℚ)]
  exact herror

section Integers

variable {a b : Bool} {m n : ℕ}

/-- The reciprocal of an integer is not more than one. -/
theorem reciprocal_lt_bound (hpos : 0 < n) : roundedUnits f (2 ^ f.scale) n < f.bound := by
  refine Nat.lt_of_le_of_lt (roundedUnits_le hpos f.representable_one.1 ?_) f.representable_one.2
  exact Nat.le_mul_of_pos_right _ hpos

theorem one_div_integer (hpos : 0 < n) (hn : f.Representable (n * 2 ^ f.scale)) :
    1 / finite b (n * 2 ^ f.scale) hn = finite b (roundedUnits f (2 ^ f.scale) n)
      (representable_roundedUnits hpos (reciprocal_lt_bound hpos)) := by
  have hne : n * 2 ^ f.scale ≠ 0 := Nat.ne_of_gt (Nat.mul_pos hpos (Nat.two_pow_pos _))
  have hdiv : 1 / finite b (n * 2 ^ f.scale) hn =
      round f b (2 ^ f.scale * 2 ^ f.scale) (n * 2 ^ f.scale) := by
    change (if n * 2 ^ f.scale = 0 then _ else _) = _
    rw [if_neg hne, Bool.false_xor]
  rw [hdiv, round_mul_mul_right _ _ _ (Nat.two_pow_pos _),
    round_eq_roundedUnits b hpos (reciprocal_lt_bound hpos)]

/-- A product of integers that is exact, times the reciprocal of one factor, is rounded once. -/
theorem mul_mul_one_div_integer (hpos : 0 < n) (hm : f.Representable (m * 2 ^ f.scale))
    (hn : f.Representable (n * 2 ^ f.scale)) (h : m * n ≤ 2 ^ f.precision) :
    finite a (m * 2 ^ f.scale) hm * finite b (n * 2 ^ f.scale) hn *
        (1 / finite b (n * 2 ^ f.scale) hn) =
      round f a (m * (n * roundedUnits f (2 ^ f.scale) n)) 1 := by
  have hunits : m * 2 ^ f.scale * (n * 2 ^ f.scale) = m * n * 2 ^ f.scale * 2 ^ f.scale := by
    rw [Nat.mul_mul_mul_comm, Nat.mul_assoc (m * n)]
  have hproduct : m * n * 2 ^ f.scale * roundedUnits f (2 ^ f.scale) n =
      m * (n * roundedUnits f (2 ^ f.scale) n) * 2 ^ f.scale := by
    ac_rfl
  have hround := round_mul_mul_right (f := f) a (m * (n * roundedUnits f (2 ^ f.scale) n)) 1
    (Nat.two_pow_pos f.scale)
  rw [Nat.one_mul] at hround
  rw [one_div_integer hpos, mul_finite, hunits,
    round_mul _ (f.representable_integer h) (Nat.two_pow_pos _), mul_finite, hproduct,
    Bool.xor_assoc, Bool.xor_self, Bool.xor_false, hround]

/-- An error relative to one is the same error relative to an integer. -/
theorem abs_mul_sub_mul_le {product : ℕ} {bound : ℚ}
    (h : |(product : ℚ) - 2 ^ f.scale| * bound ≤ 2 ^ f.scale) (m : ℕ) :
    |((m * product : ℕ) : ℚ) / (1 : ℕ) - (m * 2 ^ f.scale : ℕ)| * bound ≤
      (m * 2 ^ f.scale : ℕ) := by
  push_cast
  rw [div_one, ← mul_sub, abs_mul, Nat.abs_cast, mul_assoc]
  exact mul_le_mul_of_nonneg_left h (Nat.cast_nonneg m)

theorem value_mul_value_one_div (hpos : 0 < n) (hn : f.Representable (n * 2 ^ f.scale)) :
    (finite b (n * 2 ^ f.scale) hn).value * (1 / finite b (n * 2 ^ f.scale) hn).value =
      (n * roundedUnits f (2 ^ f.scale) n : ℕ) / 2 ^ f.scale := by
  have hone : (0 : ℚ) < 2 ^ f.scale := by positivity
  rw [one_div_integer hpos, value_finite, value_finite, signedUnits_mul_natCast]
  push_cast
  rw [mul_div_cancel_right₀ _ hone.ne', ← mul_div_assoc]
  cases b with
  | false => rfl
  | true =>
    simp only [signedUnits, if_true]
    push_cast
    rw [neg_mul_neg]

theorem mul_mul_one_div_eq_self (hpos : 0 < n) (hm : f.Representable (m * 2 ^ f.scale))
    (hn : f.Representable (n * 2 ^ f.scale)) (h : m * n ≤ 2 ^ f.precision)
    (hunit :
      |(finite b (n * 2 ^ f.scale) hn).value * (1 / finite b (n * 2 ^ f.scale) hn).value - 1| ≤
        1 / 2 ^ (f.precision + 1)) :
    finite a (m * 2 ^ f.scale) hm * finite b (n * 2 ^ f.scale) hn *
        (1 / finite b (n * 2 ^ f.scale) hn) = finite a (m * 2 ^ f.scale) hm := by
  have hone : (0 : ℚ) < 2 ^ f.scale := by positivity
  have hproduct : |((n * roundedUnits f (2 ^ f.scale) n : ℕ) : ℚ) - 2 ^ f.scale| *
      2 ^ (f.precision + 1) ≤ 2 ^ f.scale := by
    rw [value_mul_value_one_div hpos, div_sub_one hone.ne', abs_div, abs_of_pos hone,
      div_le_div_iff₀ hone (by positivity), one_mul] at hunit
    exact hunit
  have hrounded := roundedUnits_eq_of_abs_sub_le Nat.one_pos hm.1 (abs_mul_sub_mul_le hproduct m)
  rw [mul_mul_one_div_integer hpos hm hn h, round, hrounded, ofUnits, dif_pos hm]

/-- The reciprocal of a power of two is exact. -/
theorem mul_reciprocal_two_pow {exponent : ℕ} (h : exponent ≤ f.scale) :
    2 ^ exponent * roundedUnits f (2 ^ f.scale) (2 ^ exponent) = 2 ^ f.scale := by
  have hscale := f.scale_lt_maxPlace
  have hrepresentable : f.Representable (2 ^ (f.scale - exponent)) :=
    f.representable_two_pow (by omega)
  have hrounded := roundedUnits_mul hrepresentable (Nat.two_pow_pos exponent)
  rw [← Nat.pow_add, Nat.sub_add_cancel h] at hrounded
  rw [hrounded, ← Nat.pow_add, Nat.add_sub_cancel' h]

/-- An exact product of integers that is multiplied by the reciprocal of one factor is within a unit
in the last place of the other factor. -/
theorem withinUlp_mul_mul_one_div (hscale : 2 * f.precision ≤ f.scale)
    (hroom : f.scale + 1 < f.maxPlace) (hmpos : 0 < m) (hpos : 0 < n)
    (hm : f.Representable (m * 2 ^ f.scale)) (hn : f.Representable (n * 2 ^ f.scale))
    (h : m * n ≤ 2 ^ f.precision) :
    WithinUlp (finite a (m * 2 ^ f.scale) hm) (finite a (m * 2 ^ f.scale) hm *
      finite b (n * 2 ^ f.scale) hn * (1 / finite b (n * 2 ^ f.scale) hn)) := by
  rw [mul_mul_one_div_integer hpos hm hn h]
  have hreciprocal := abs_mul_reciprocal_sub_le hscale hpos
    (Nat.le_trans (Nat.le_mul_of_pos_left n hmpos) h)
  rw [← Nat.cast_mul] at hreciprocal
  generalize n * roundedUnits f (2 ^ f.scale) n = product at hreciprocal ⊢
  have hone : (0 : ℚ) < 2 ^ f.scale := by positivity
  have hdigits : (1 : ℚ) < 2 ^ f.precision := one_lt_pow₀ one_lt_two (by
    have := f.one_lt_precision
    omega)
  have hnear : |(product : ℚ) - 2 ^ f.scale| < 2 ^ f.scale :=
    lt_of_mul_lt_mul_right (hreciprocal.trans_lt (lt_mul_of_one_lt_right hone hdigits))
      (zero_lt_one.trans hdigits).le
  obtain ⟨hbelow, habove⟩ := abs_lt.mp hnear
  have hproduct : 0 < product ∧ product ≤ 2 ^ (f.scale + 1) := by
    have hpositive : (0 : ℚ) < product := by linarith
    have hle : (product : ℚ) ≤ 2 ^ f.scale * 2 := by linarith
    exact ⟨mod_cast hpositive, mod_cast hle⟩
  have hlt : roundedUnits f (m * product) 1 < f.bound := by
    have hexponent : f.precision + (f.scale + 1) < f.precision + f.maxPlace := by omega
    refine Nat.lt_of_le_of_lt (roundedUnits_le Nat.one_pos
      (f.representable_two_pow hexponent).1 ?_) (f.representable_two_pow hexponent).2
    rw [Nat.mul_one, Nat.pow_add]
    exact Nat.mul_le_mul (Nat.le_trans (Nat.le_mul_of_pos_right m hpos) h) hproduct.2
  have hrounded := abs_roundedUnits_sub_le Nat.one_pos hm.1 (abs_mul_sub_mul_le hreciprocal m)
  refine ⟨?_, isZero_round_units a (Nat.mul_pos hmpos hproduct.1), ?_, ?_⟩
  · rw [round_eq_roundedUnits a Nat.one_pos hlt]
    rfl
  · rw [round_eq_roundedUnits a Nat.one_pos hlt]
    rfl
  · have hvalue := abs_signedUnits_div_sub a (roundedUnits f (m * product) 1) (m * 2 ^ f.scale) 1
    rw [div_one, div_one] at hvalue
    rw [round_eq_roundedUnits a Nat.one_pos hlt, value_finite, value_finite, ulp, ← sub_div,
      abs_div, abs_of_pos hone, hvalue]
    exact div_le_div_of_nonneg_right hrounded hone.le

end Integers

section Coefficients

variable {c d : Binary f}

/-- Integers other than zero, with a product that is held by the format. -/
structure ExactFactors (c d : Binary f) : Prop where
  left : c.isInteger = true
  right : d.isInteger = true
  left_ne : c.isZero = false
  right_ne : d.isZero = false
  product : (c.toInt * d.toInt).natAbs ≤ 2 ^ f.precision

theorem isFinite_of_isInteger (h : c.isInteger = true) : c.isFinite = true := by
  obtain ⟨a, m, hm, rfl⟩ := eq_finite_of_isInteger h
  rfl

theorem ExactFactors.exists_finite (h : ExactFactors c d) :
    ∃ a b m n, ∃ (hm : f.Representable (m * 2 ^ f.scale)) (hn : f.Representable (n * 2 ^ f.scale)),
      c = finite a (m * 2 ^ f.scale) hm ∧ d = finite b (n * 2 ^ f.scale) hn ∧
        0 < m ∧ 0 < n ∧ m * n ≤ 2 ^ f.precision := by
  obtain ⟨hc, hd, hczero, hdzero, hproduct⟩ := h
  obtain ⟨a, m, hm, rfl⟩ := eq_finite_of_isInteger hc
  obtain ⟨b, n, hn, rfl⟩ := eq_finite_of_isInteger hd
  refine ⟨a, b, m, n, hm, hn, rfl, rfl, ?_, ?_, ?_⟩
  · exact Nat.pos_of_mul_pos_right (Nat.pos_of_ne_zero (ne_of_beq_false hczero))
  · exact Nat.pos_of_mul_pos_right (Nat.pos_of_ne_zero (ne_of_beq_false hdzero))
  · rwa [toInt_finite, toInt_finite, Int.natAbs_mul, natAbs_signedUnits, natAbs_signedUnits]
      at hproduct

theorem ExactFactors.isInteger_mul (h : ExactFactors c d) : (c * d).isInteger = true :=
  (mul_of_isInteger h.left h.right h.product).1

theorem ExactFactors.isZero_mul (h : ExactFactors c d) : (c * d).isZero = false := by
  obtain ⟨hinteger, hvalue⟩ := mul_of_isInteger h.left h.right h.product
  rw [← Bool.not_eq_true, isZero_iff_toInt hinteger, hvalue]
  have hc := h.left_ne
  have hd := h.right_ne
  rw [← Bool.not_eq_true, isZero_iff_toInt h.left] at hc
  rw [← Bool.not_eq_true, isZero_iff_toInt h.right] at hd
  exact Int.mul_ne_zero hc hd

theorem ExactFactors.eq_self (h : ExactFactors c d)
    (hunit : |d.value * (1 / d).value - 1| ≤ 1 / 2 ^ (f.precision + 1)) : c * d * (1 / d) = c := by
  obtain ⟨a, b, m, n, hm, hn, rfl, rfl, -, hpos, hproduct⟩ := h.exists_finite
  exact mul_mul_one_div_eq_self hpos hm hn hproduct hunit

/-- The reciprocal of a power of two is exact. -/
theorem ExactFactors.value_mul_value_one_div (h : ExactFactors c d)
    (hscale : 2 * f.precision ≤ f.scale) {exponent : ℕ} (hd : d.toInt.natAbs = 2 ^ exponent) :
    d.value * (1 / d).value = 1 := by
  obtain ⟨a, b, m, n, hm, hn, rfl, rfl, hmpos, hpos, hproduct⟩ := h.exists_finite
  rw [toInt_finite, natAbs_signedUnits] at hd
  subst hd
  have hle : exponent ≤ f.scale := by
    have hpower : 2 ^ exponent ≤ 2 ^ f.precision :=
      Nat.le_trans (Nat.le_mul_of_pos_left _ hmpos) hproduct
    have := (Nat.pow_le_pow_iff_right (by decide : 1 < 2)).mp hpower
    omega
  rw [Binary.value_mul_value_one_div hpos, mul_reciprocal_two_pow hle]
  push_cast
  exact div_self (by positivity)

theorem ExactFactors.withinUlp (h : ExactFactors c d) (hscale : 2 * f.precision ≤ f.scale)
    (hroom : f.scale + 1 < f.maxPlace) : WithinUlp c (c * d * (1 / d)) := by
  obtain ⟨a, b, m, n, hm, hn, rfl, rfl, hmpos, hpos, hproduct⟩ := h.exists_finite
  exact withinUlp_mul_mul_one_div hscale hroom hmpos hpos hm hn hproduct

end Coefficients

end Binary

end FloatPolynomial
