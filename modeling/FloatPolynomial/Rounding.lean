/-!
# Rounding Quotients

The quotient of two natural numbers, rounded to the nearest integer, with exact halves going to
the even neighbour.  Every rounding in this library, binary or decimal, is one of these
quotients.  The main statements are that an exact quotient is kept, that a common factor of both
sides does not matter, and that the result is within half a unit.
-/

namespace FloatPolynomial

-- Powers of natural numbers use the exponentiation of `Nat` itself, whatever else is in scope.
attribute [scoped instance (high)] instPowNat

/-- The integer nearest to `numerator / denominator`; a half goes to the even neighbour. -/
def nearestQuotient (numerator denominator : Nat) : Nat :=
  let quotient := numerator / denominator
  let remainder := numerator % denominator
  if 2 * remainder < denominator then quotient
  else if denominator < 2 * remainder then quotient + 1
  else quotient + quotient % 2

theorem nearestQuotient_mul_left (quotient : Nat) {denominator : Nat} (hpos : 0 < denominator) :
    nearestQuotient (quotient * denominator) denominator = quotient := by
  simp [nearestQuotient, Nat.mul_mod_left, Nat.mul_div_left _ hpos, hpos]

@[simp]
theorem nearestQuotient_one (numerator : Nat) : nearestQuotient numerator 1 = numerator := by
  have h := nearestQuotient_mul_left numerator Nat.one_pos
  rwa [Nat.mul_one] at h

@[simp]
theorem nearestQuotient_zero {denominator : Nat} (hpos : 0 < denominator) :
    nearestQuotient 0 denominator = 0 := by
  simp [nearestQuotient, hpos]

theorem nearestQuotient_mul_mul_right (numerator denominator : Nat) {factor : Nat}
    (hpos : 0 < factor) :
    nearestQuotient (numerator * factor) (denominator * factor) =
      nearestQuotient numerator denominator := by
  have hquotient : numerator * factor / (denominator * factor) = numerator / denominator :=
    Nat.mul_div_mul_right _ _ hpos
  have hremainder :
      numerator * factor % (denominator * factor) = numerator % denominator * factor :=
    Nat.mul_mod_mul_right ..
  have hdouble : 2 * (numerator % denominator * factor) = 2 * (numerator % denominator) * factor :=
    (Nat.mul_assoc ..).symm
  simp only [nearestQuotient, hquotient, hremainder, hdouble,
    Nat.mul_lt_mul_right hpos]

theorem div_le_nearestQuotient (numerator denominator : Nat) :
    numerator / denominator ≤ nearestQuotient numerator denominator := by
  unfold nearestQuotient
  dsimp only
  split
  · exact Nat.le_refl _
  · split
    · exact Nat.le_succ _
    · exact Nat.le_add_right ..

/-- The rounded quotient is at most half a unit above the exact one. -/
theorem two_mul_nearestQuotient_mul_le (numerator : Nat) {denominator : Nat}
    (hpos : 0 < denominator) :
    2 * (nearestQuotient numerator denominator * denominator) ≤ 2 * numerator + denominator := by
  have hdiv := Nat.div_add_mod numerator denominator
  have hlt := Nat.mod_lt numerator hpos
  have hcomm := Nat.mul_comm denominator (numerator / denominator)
  unfold nearestQuotient
  dsimp only
  split
  · omega
  · split
    · rw [Nat.add_mul]
      omega
    · rcases Nat.mod_two_eq_zero_or_one (numerator / denominator) with heven | hodd
      · rw [heven, Nat.add_zero]
        omega
      · rw [hodd, Nat.add_mul]
        omega

/-- The rounded quotient is at most half a unit below the exact one. -/
theorem two_mul_le_nearestQuotient_mul (numerator : Nat) {denominator : Nat}
    (hpos : 0 < denominator) :
    2 * numerator ≤ 2 * (nearestQuotient numerator denominator * denominator) + denominator := by
  have hdiv := Nat.div_add_mod numerator denominator
  have hlt := Nat.mod_lt numerator hpos
  have hcomm := Nat.mul_comm denominator (numerator / denominator)
  unfold nearestQuotient
  dsimp only
  split
  · omega
  · split
    · rw [Nat.add_mul]
      omega
    · rw [Nat.add_mul]
      have := Nat.zero_le (numerator / denominator % 2 * denominator)
      omega

end FloatPolynomial
