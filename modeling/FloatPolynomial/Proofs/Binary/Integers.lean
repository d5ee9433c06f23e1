import FloatPolynomial.Binary.Arithmetic
import FloatPolynomial.Proofs.Binary.ZeroSums

/-!
# Integers Among Binary Numbers

The numbers that are integers, and their integer values.  A format of precision `p` holds every
integer up to `2 ^ p`, so a sum or a product of integers whose value does not exceed this bound is
exact.  The value determines the number but for the sign of a zero.
-/

namespace FloatPolynomial

/-- Every integer of at most `precision` binary digits is held, and the next one. -/
theorem Format.representable_integer (f : Format) {magnitude : Nat}
    (h : magnitude ≤ 2 ^ f.precision) : f.Representable (magnitude * 2 ^ f.scale) := by
  have hscale := f.scale_lt_maxPlace
  refine ⟨f.dvd_mul_two_pow h f.scale, ?_⟩
  calc
    magnitude * 2 ^ f.scale ≤ 2 ^ f.precision * 2 ^ f.scale := Nat.mul_le_mul_right _ h
    _ = 2 ^ (f.precision + f.scale) := (Nat.pow_add ..).symm
    _ < f.bound := Nat.pow_lt_pow_right (by decide) (by omega)

namespace Binary

variable {f : Format} {x y : Binary f}

theorem signedUnits_mul_natCast (negative : Bool) (magnitude factor : Nat) :
    signedUnits negative (magnitude * factor) = signedUnits negative magnitude * factor := by
  cases negative with
  | false => exact Int.natCast_mul magnitude factor
  | true =>
    change -((magnitude * factor : Nat) : Int) = -(magnitude : Int) * factor
    rw [Int.natCast_mul, Int.neg_mul]

theorem signedUnits_xor (a b : Bool) (m n : Nat) :
    signedUnits (a ^^ b) (m * n) = signedUnits a m * signedUnits b n := by
  cases b with
  | false =>
    rw [Bool.xor_false]
    exact signedUnits_mul_natCast a m n
  | true =>
    rw [Bool.xor_true, signedUnits_not, signedUnits_mul_natCast]
    exact (Int.mul_neg ..).symm

theorem signedUnits_inj {a b : Bool} {m n : Nat} (h : signedUnits a m = signedUnits b n)
    (hne : signedUnits a m ≠ 0) : a = b ∧ m = n := by
  cases a <;> cases b <;> simp [signedUnits] at h hne ⊢ <;> omega

theorem signedUnits_natAbs {negative : Bool} {value : Int}
    (h : value ≠ 0 → negative = decide (value < 0)) : signedUnits negative value.natAbs = value := by
  by_cases hzero : value = 0
  · rw [hzero, Int.natAbs_zero, signedUnits_zero]
  rw [h hzero]
  by_cases hneg : value < 0
  · simp only [signedUnits, hneg, decide_true, if_true]
    omega
  · simp only [signedUnits, hneg, decide_false, Bool.false_eq_true, if_false]
    omega

/-- Whether the number is an integer. -/
def isInteger : Binary f → Bool
  | finite _ units _ => units % 2 ^ f.scale == 0
  | _ => false

/-- The value of an integer; of another finite number, its integer part. -/
def toInt : Binary f → Int
  | finite negative units _ => signedUnits negative (units / 2 ^ f.scale)
  | _ => 0

@[simp]
theorem isInteger_finite (negative : Bool) {magnitude : Nat}
    (h : f.Representable (magnitude * 2 ^ f.scale)) :
    (finite negative (magnitude * 2 ^ f.scale) h).isInteger = true := by
  rw [isInteger, Nat.mul_mod_left]
  rfl

@[simp]
theorem toInt_finite (negative : Bool) {magnitude : Nat}
    (h : f.Representable (magnitude * 2 ^ f.scale)) :
    (finite negative (magnitude * 2 ^ f.scale) h).toInt = signedUnits negative magnitude := by
  rw [toInt, Nat.mul_div_cancel _ (Nat.two_pow_pos _)]

theorem eq_finite_of_isInteger (h : x.isInteger = true) :
    ∃ negative magnitude, ∃ hrep : f.Representable (magnitude * 2 ^ f.scale),
      x = finite negative (magnitude * 2 ^ f.scale) hrep := by
  rcases x with _ | negative | ⟨negative, units, hunits⟩
  · cases h
  · cases h
  · obtain ⟨magnitude, rfl⟩ := Nat.dvd_of_mod_eq_zero (eq_of_beq h)
    simp only [Nat.mul_comm (2 ^ f.scale)] at hunits ⊢
    exact ⟨negative, magnitude, hunits, rfl⟩

theorem isZero_iff_toInt (h : x.isInteger = true) : x.isZero = true ↔ x.toInt = 0 := by
  obtain ⟨negative, magnitude, hrep, rfl⟩ := eq_finite_of_isInteger h
  rw [toInt_finite, signedUnits_eq_zero, isZero, beq_iff_eq, Nat.mul_eq_zero]
  exact or_iff_left (Nat.ne_of_gt (Nat.two_pow_pos _))

/-- Integers of one value other than zero are one number. -/
theorem eq_of_toInt_eq (hx : x.isInteger = true) (hy : y.isInteger = true)
    (h : x.toInt = y.toInt) (hne : x.toInt ≠ 0) : x = y := by
  obtain ⟨a, m, hm, rfl⟩ := eq_finite_of_isInteger hx
  obtain ⟨b, n, hn, rfl⟩ := eq_finite_of_isInteger hy
  rw [toInt_finite] at h hne
  rw [toInt_finite] at h
  obtain ⟨rfl, rfl⟩ := signedUnits_inj h hne
  rfl

@[simp]
theorem isInteger_zero : (0 : Binary f).isInteger = true := by
  rw [zero_def, isInteger, Nat.zero_mod]
  rfl

@[simp]
theorem toInt_zero : (0 : Binary f).toInt = 0 := by
  rw [zero_def, toInt, Nat.zero_div, signedUnits_zero]

@[simp]
theorem isInteger_one : (1 : Binary f).isInteger = true := by
  rw [one_def, isInteger, Nat.mod_self]
  rfl

@[simp]
theorem toInt_one : (1 : Binary f).toInt = 1 := by
  rw [one_def, toInt, Nat.div_self (Nat.two_pow_pos _)]
  rfl

@[simp]
theorem isInteger_neg : (-x).isInteger = x.isInteger := by
  cases x <;> rfl

@[simp]
theorem toInt_neg : (-x).toInt = -x.toInt := by
  rcases x with _ | negative | ⟨negative, units, hunits⟩
  · rfl
  · rfl
  · exact signedUnits_not negative (units / 2 ^ f.scale)

/-- A sum of integers that is not too large is exact. -/
theorem add_of_isInteger (hx : x.isInteger = true) (hy : y.isInteger = true)
    (h : (x.toInt + y.toInt).natAbs ≤ 2 ^ f.precision) :
    (x + y).isInteger = true ∧ (x + y).toInt = x.toInt + y.toInt := by
  obtain ⟨a, m, hm, rfl⟩ := eq_finite_of_isInteger hx
  obtain ⟨b, n, hn, rfl⟩ := eq_finite_of_isInteger hy
  rw [toInt_finite, toInt_finite] at h ⊢
  generalize hsum : signedUnits a m + signedUnits b n = sum at h ⊢
  have hpos : (0 : Int) < (2 ^ f.scale : Nat) := Int.natCast_pos.mpr (Nat.two_pow_pos _)
  have hunits : signedUnits a (m * 2 ^ f.scale) + signedUnits b (n * 2 ^ f.scale) =
      sum * (2 ^ f.scale : Nat) := by
    rw [signedUnits_mul_natCast, signedUnits_mul_natCast, ← Int.add_mul, hsum]
  rw [add_finite, hunits, Int.natAbs_mul, Int.natAbs_natCast,
    round_units _ (f.representable_integer h), toInt_finite]
  refine ⟨isInteger_finite _ _, signedUnits_natAbs fun hne ↦ ?_⟩
  rw [if_neg (Int.mul_ne_zero hne (Int.ne_of_gt hpos))]
  have hsign : sum * (2 ^ f.scale : Nat) < 0 * (2 ^ f.scale : Nat) ↔ sum < 0 :=
    Int.mul_lt_mul_right hpos
  rw [Int.zero_mul] at hsign
  exact decide_eq_decide.mpr hsign

/-- A product of integers that is not too large is exact. -/
theorem mul_of_isInteger (hx : x.isInteger = true) (hy : y.isInteger = true)
    (h : (x.toInt * y.toInt).natAbs ≤ 2 ^ f.precision) :
    (x * y).isInteger = true ∧ (x * y).toInt = x.toInt * y.toInt := by
  obtain ⟨a, m, hm, rfl⟩ := eq_finite_of_isInteger hx
  obtain ⟨b, n, hn, rfl⟩ := eq_finite_of_isInteger hy
  rw [toInt_finite, toInt_finite] at h ⊢
  rw [Int.natAbs_mul, natAbs_signedUnits, natAbs_signedUnits] at h
  have hunits : m * 2 ^ f.scale * (n * 2 ^ f.scale) = m * n * 2 ^ f.scale * 2 ^ f.scale := by
    rw [Nat.mul_mul_mul_comm, Nat.mul_assoc (m * n)]
  rw [mul_finite, hunits, round_mul _ (f.representable_integer h) (Nat.two_pow_pos _),
    toInt_finite, signedUnits_xor]
  exact ⟨isInteger_finite _ _, rfl⟩

end Binary

end FloatPolynomial
