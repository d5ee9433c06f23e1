import FloatPolynomial.Decimal.Basic
import FloatPolynomial.Proofs.Binary.Magnitudes

/-!
# Decimals Are Rounded Correctly

A decimal whose exponent alone settles the result is not formed as a fraction.  That does not show
in the result: `Decimal.toBinary` is the nearest number for every decimal.
-/

namespace FloatPolynomial

theorem two_pow_le_ten_pow (exponent : Nat) : 2 ^ (3 * exponent) ≤ 10 ^ exponent := by
  rw [Nat.pow_mul]
  exact Nat.pow_le_pow_left (by decide) exponent

/-- The bound of a format in terms of the number one. -/
theorem Format.bound_eq (f : Format) : f.bound = 2 ^ (2 ^ (f.exponentBits - 1) + f.scale) := by
  have hprecision := f.one_lt_precision
  have hlt := f.precision_lt
  have hpow := f.two_pow_exponentBits
  unfold bound maxPlace scale
  congr 1
  omega

namespace Binary

variable {f : Format}

/-- A common factor of both sides of a quotient does not show in its rounding. -/
theorem round_mul_mul_right (negative : Bool) (numerator denominator : Nat) {factor : Nat}
    (hpos : 0 < factor) :
    round f negative (numerator * factor) (denominator * factor) =
      round f negative numerator denominator := by
  have hquotient : numerator * factor / (denominator * factor) = numerator / denominator :=
    Nat.mul_div_mul_right _ _ hpos
  rw [round, round, roundedUnits, roundedUnits, hquotient, Nat.mul_right_comm denominator factor,
    nearestQuotient_mul_mul_right _ _ hpos]

/-- The sign has no part in how a magnitude is rounded. -/
theorem round_eq_finite {negative : Bool} {numerator denominator units : Nat}
    {h : f.Representable units} (other : Bool)
    (hround : round f negative numerator denominator = finite negative units h) :
    round f other numerator denominator = finite other units h := by
  rw [round, ofUnits] at hround ⊢
  split at hround
  · obtain ⟨-, rfl⟩ := finite.inj hround
    exact dif_pos h
  · cases hround

end Binary

namespace Decimal

variable {f : Format}

theorem nearest_of_exceeds {d : Decimal} (negative : Bool) (h : d.exceeds f = true) :
    d.nearest f negative = .infinite negative := by
  simp only [exceeds, Bool.and_eq_true, bne_iff_ne, decide_eq_true_eq] at h
  obtain ⟨hsignificand, hexponent⟩ := h
  have hlarge : 2 ^ (f.exponentBits - 1) ≤ 3 * d.exponent.toNat := by omega
  have hnone : (-d.exponent).toNat = 0 := by
    have := Nat.two_pow_pos (f.exponentBits - 1)
    omega
  apply Binary.round_eq_infinite negative (Nat.pow_pos (by decide))
  rw [hnone, Nat.pow_zero, Nat.mul_one, f.bound_eq]
  calc
    2 ^ (2 ^ (f.exponentBits - 1) + f.scale) ≤ 2 ^ (3 * d.exponent.toNat + f.scale) :=
      Nat.pow_le_pow_right (by decide) (Nat.add_le_add_right hlarge _)
    _ = 2 ^ (3 * d.exponent.toNat) * 2 ^ f.scale := Nat.pow_add ..
    _ ≤ 10 ^ d.exponent.toNat * 2 ^ f.scale := Nat.mul_le_mul_right _ (two_pow_le_ten_pow _)
    _ ≤ d.significand * 10 ^ d.exponent.toNat * 2 ^ f.scale :=
      Nat.mul_le_mul_right _ (Nat.le_mul_of_pos_left _ (Nat.pos_of_ne_zero hsignificand))

theorem nearest_of_vanishes {d : Decimal} (negative : Bool) (h : d.vanishes f = true) :
    d.nearest f negative = .finite negative 0 f.representable_zero := by
  have hdenominator : 0 < 10 ^ (-d.exponent).toNat := Nat.pow_pos (by decide)
  by_cases hzero : d.significand = 0
  · rw [nearest, hzero, Nat.zero_mul, Nat.zero_mul, Binary.round_zero negative hdenominator]
  · simp only [vanishes, Bool.or_eq_true, beq_iff_eq, hzero, false_or, decide_eq_true_eq] at h
    have hnone : d.exponent.toNat = 0 := by omega
    have hsmall : d.significand.log2 + 1 + f.scale + 1 ≤ 3 * (-d.exponent).toNat := by omega
    apply Binary.round_eq_zero
    rw [hnone, Nat.pow_zero, Nat.mul_one]
    calc
      2 * (d.significand * 2 ^ f.scale) < 2 * (2 ^ (d.significand.log2 + 1) * 2 ^ f.scale) :=
        Nat.mul_lt_mul_of_pos_left
          (Nat.mul_lt_mul_of_pos_right Nat.lt_log2_self (Nat.two_pow_pos _)) (by decide)
      _ = 2 ^ (d.significand.log2 + 1 + f.scale + 1) := by
        rw [← Nat.pow_add, Nat.pow_succ 2 (d.significand.log2 + 1 + f.scale), Nat.mul_comm]
      _ ≤ 2 ^ (3 * (-d.exponent).toNat) := Nat.pow_le_pow_right (by decide) hsmall
      _ ≤ 10 ^ (-d.exponent).toNat := two_pow_le_ten_pow _

/-- A zero at the end of a fraction does not change what is read. -/
theorem nearest_trailing_zero (negative : Bool) (significand places : Nat) :
    nearest f negative ⟨significand * 10, -((places + 1 : Nat) : Int)⟩ =
      nearest f negative ⟨significand, -(places : Int)⟩ := by
  have hwhole (count : Nat) : (-(count : Int)).toNat = 0 := by omega
  have hplaces (count : Nat) : (- -(count : Int)).toNat = count := by omega
  rw [nearest, nearest]
  dsimp only
  rw [hwhole, hwhole, hplaces, hplaces, Nat.pow_zero, Nat.mul_one, Nat.mul_one, Nat.pow_succ,
    Nat.mul_right_comm, Binary.round_mul_mul_right _ _ _ (by decide)]

/-- Reading a decimal rounds it correctly. -/
theorem toBinary_eq_nearest (negative : Bool) (d : Decimal) :
    d.toBinary f negative = d.nearest f negative := by
  unfold toBinary
  split
  · exact (nearest_of_exceeds negative ‹_›).symm
  · split
    · exact (nearest_of_vanishes negative ‹_›).symm
    · rfl

end Decimal

end FloatPolynomial
