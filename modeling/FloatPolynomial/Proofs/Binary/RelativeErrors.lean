import FloatPolynomial.Proofs.Binary.CorrectRounding

/-!
# Relative Errors of Rounding

A quotient that fills the digits of a format is rounded with a relative error of at most
`2 ^ -precision`.  An error of that size moves a number of the format by at most one unit in its
last place, and an error of half that size is undone by rounding; so it is on either side of a power
of two, although the numbers below it are twice as dense.
-/

namespace FloatPolynomial

namespace Binary

variable {f : Format}

section Errors

variable {numerator denominator units : ℕ}

/-- A relative error is an error in steps of the last place. -/
theorem mul_abs_sub_lt_two_pow_place {exact factor : ℚ}
    (h : |exact - units| * (factor * 2 ^ f.precision) ≤ units) :
    factor * |exact - units| < 2 ^ f.place units := by
  have hlt : (units : ℚ) < 2 ^ f.precision * 2 ^ f.place units := mod_cast f.lt_two_pow_place units
  apply lt_of_mul_lt_mul_right _ (by positivity : (0 : ℚ) ≤ 2 ^ f.precision)
  linarith

/-- What is less than a step away from a number on its grid is rounded to one of its neighbours or
to the number itself. -/
theorem abs_roundedUnits_sub_le_of_lt (hpos : 0 < denominator) {place count : ℕ}
    (hcount : count < 2 ^ f.precision)
    (hnear : |(numerator : ℚ) / denominator - count * 2 ^ place| < 2 ^ place) :
    |(roundedUnits f numerator denominator : ℚ) - count * 2 ^ place| ≤ 2 ^ place := by
  have hdenominator : (0 : ℚ) < denominator := Nat.cast_pos.mpr hpos
  obtain ⟨hbelow, habove⟩ := abs_lt.mp hnear
  have hle : roundedUnits f numerator denominator ≤ (count + 1) * 2 ^ place := by
    apply roundedUnits_le hpos (f.dvd_mul_two_pow hcount place)
    have hexact : (numerator : ℚ) ≤ (count + 1) * 2 ^ place * denominator := by
      rw [← div_le_iff₀ hdenominator]
      linarith
    exact_mod_cast hexact
  have hge : count * 2 ^ place ≤ roundedUnits f numerator denominator + 2 ^ place := by
    cases count with
    | zero =>
      rw [Nat.zero_mul]
      exact Nat.zero_le _
    | succ before =>
      rw [Nat.succ_mul]
      apply Nat.add_le_add_right
      apply le_roundedUnits hpos (f.dvd_mul_two_pow (Nat.le_of_succ_le (Nat.le_of_lt hcount)) place)
      have hexact : (before * 2 ^ place * denominator : ℚ) ≤ numerator := by
        rw [← le_div_iff₀ hdenominator]
        push_cast at hbelow
        linarith
      exact_mod_cast hexact
  have hle : (roundedUnits f numerator denominator : ℚ) ≤ (count + 1) * 2 ^ place := mod_cast hle
  have hge : (count * 2 ^ place : ℚ) ≤ roundedUnits f numerator denominator + 2 ^ place :=
    mod_cast hge
  rw [abs_le]
  constructor <;> linarith

/-- A relative error of at most `2 ^ -precision` is rounded to one unit in the last place. -/
theorem abs_roundedUnits_sub_le (hpos : 0 < denominator) (hunits : 2 ^ f.place units ∣ units)
    (h : |(numerator : ℚ) / denominator - units| * 2 ^ f.precision ≤ units) :
    |(roundedUnits f numerator denominator : ℚ) - units| ≤ 2 ^ f.place units := by
  rw [← one_mul ((2 : ℚ) ^ f.precision)] at h
  have hnear := mul_abs_sub_lt_two_pow_place h
  rw [one_mul] at hnear
  have hlt := f.lt_two_pow_place units
  obtain ⟨count, hcount⟩ := hunits
  rw [Nat.mul_comm] at hcount
  have hcast : (units : ℚ) = count * 2 ^ f.place units := mod_cast hcount
  have hdigits : count < 2 ^ f.precision := by
    apply Nat.lt_of_mul_lt_mul_right (a := 2 ^ f.place units)
    rwa [← hcount]
  rw [hcast] at hnear ⊢
  exact abs_roundedUnits_sub_le_of_lt hpos hdigits hnear

/-- A quotient within half a step of a number on its grid is rounded to it, and one at half a step
if the number is even there. -/
theorem roundedUnits_eq_of_half_step (hpos : 0 < denominator) {place count : ℕ}
    (hplace : f.place (numerator / denominator) = place)
    (hnear : 2 * |(numerator : ℚ) / denominator - count * 2 ^ place| ≤ 2 ^ place)
    (heven : 2 * |(numerator : ℚ) / denominator - count * 2 ^ place| = 2 ^ place → Even count) :
    roundedUnits f numerator denominator = count * 2 ^ place := by
  have hstep : (0 : ℚ) < 2 ^ place := by positivity
  have hscaled : |(numerator : ℚ) / denominator - count * 2 ^ place| =
      |(numerator : ℚ) / (denominator * 2 ^ place : ℕ) - count| * 2 ^ place := by
    rw [← abs_div_sub_mul_two_pow]
    push_cast
    rfl
  rw [hscaled] at hnear heven
  have hrounds : RoundsNearestEven ((numerator : ℚ) / (denominator * 2 ^ place : ℕ)) count := by
    constructor
    · apply le_of_mul_le_mul_right _ hstep
      linarith
    · intro hhalf
      apply heven
      rw [hhalf]
      ring
  rw [roundedUnits, hplace]
  congr 1
  exact (roundsNearestEven_nearestQuotient numerator
    (Nat.mul_pos hpos (Nat.two_pow_pos place))).unique hrounds

/-- A number that is near, but has a coarser last place than the quotient, is a power of two. -/
theorem eq_two_pow_of_place_lt (hpos : 0 < denominator) (hunits : 2 ^ f.place units ∣ units)
    (hplace : f.place (numerator / denominator) < f.place units)
    (hnear : 2 * |(numerator : ℚ) / denominator - units| < 2 ^ f.place units) :
    units = 2 ^ (f.precision - 1) * 2 ^ f.place units := by
  have hlog := f.log2_eq_of_place_pos (Nat.zero_lt_of_lt hplace)
  have hle : 2 ^ (f.precision - 1) * 2 ^ f.place units ≤ units :=
    f.two_pow_mul_le_of_place_pos (Nat.zero_lt_of_lt hplace)
  have hquotient : (numerator : ℚ) / denominator < 2 ^ (f.precision - 1) * 2 ^ f.place units := by
    have hlt := f.lt_two_pow_log2_of_place_lt hplace
    rw [hlog, Nat.pow_add] at hlt
    rw [div_lt_iff₀ (Nat.cast_pos.mpr hpos)]
    exact_mod_cast (Nat.div_lt_iff_lt_mul hpos).mp hlt
  obtain ⟨count, hcount⟩ := hunits
  rw [Nat.mul_comm] at hcount
  generalize f.place units = place at *
  subst hcount
  have hcount : count < 2 ^ (f.precision - 1) + 1 := by
    have hbelow := neg_abs_le ((numerator : ℚ) / denominator - (count * 2 ^ place : ℕ))
    push_cast at hbelow hnear
    have hstep : (0 : ℚ) < 2 ^ place := by positivity
    have hlt : (count : ℚ) < 2 ^ (f.precision - 1) + 1 := by
      apply lt_of_mul_lt_mul_right _ hstep.le
      linarith
    exact_mod_cast hlt
  have hge : 2 ^ (f.precision - 1) ≤ count := Nat.le_of_mul_le_mul_right hle (Nat.two_pow_pos _)
  obtain rfl : count = 2 ^ (f.precision - 1) := by omega
  rfl

/-- Just below a power of two the grid is twice as fine, and the power of two is even on it. -/
theorem roundedUnits_eq_of_place_lt (hpos : 0 < denominator) (hunits : 2 ^ f.place units ∣ units)
    (hplace : f.place (numerator / denominator) < f.place units)
    (h : |(numerator : ℚ) / denominator - units| * (2 * 2 ^ f.precision) ≤ units) :
    roundedUnits f numerator denominator = units := by
  have hpower := eq_two_pow_of_place_lt hpos hunits hplace (mul_abs_sub_lt_two_pow_place h)
  obtain ⟨place, hfiner⟩ : ∃ place, f.place units = place + 1 :=
    Nat.exists_eq_succ_of_ne_zero (Nat.ne_zero_of_lt hplace)
  obtain ⟨digits, hdigits⟩ : ∃ digits, f.precision = digits + 1 :=
    Nat.exists_eq_succ_of_ne_zero (Nat.ne_zero_of_lt f.one_lt_precision)
  have hunits : units = 2 ^ f.precision * 2 ^ place := by
    rw [hpower, hfiner, hdigits, Nat.add_sub_cancel, Nat.pow_succ, Nat.pow_succ]
    ac_rfl
  have hcast : (units : ℚ) = (2 ^ f.precision : ℕ) * 2 ^ place := mod_cast hunits
  have hhalf : 2 * |(numerator : ℚ) / denominator - (2 ^ f.precision : ℕ) * 2 ^ place| ≤
      2 ^ place := by
    apply le_of_mul_le_mul_right _ (by positivity : (0 : ℚ) < 2 ^ f.precision)
    rw [hcast] at h
    push_cast at h ⊢
    linarith
  have hexact : (2 ^ (digits + place) : ℚ) ≤ numerator / denominator := by
    have hbelow := neg_abs_le
      ((numerator : ℚ) / denominator - (2 ^ f.precision : ℕ) * 2 ^ place)
    have hpositive : (0 : ℚ) < 2 ^ place := by positivity
    have hstep : (1 : ℚ) * 2 ^ place ≤ 2 ^ digits * 2 ^ place :=
      mul_le_mul_of_nonneg_right (one_le_pow₀ one_le_two) (by positivity)
    rw [hdigits] at hbelow hhalf
    push_cast [pow_succ, pow_add] at hbelow hhalf ⊢
    linarith
  have hquotient : 2 ^ (digits + place) ≤ numerator / denominator := by
    rw [le_div_iff₀ (Nat.cast_pos.mpr hpos)] at hexact
    rw [Nat.le_div_iff_mul_le hpos]
    exact_mod_cast hexact
  have hlog : digits + place ≤ (numerator / denominator).log2 :=
    (Nat.le_log2 (Nat.ne_of_gt (Nat.lt_of_lt_of_le (Nat.two_pow_pos _) hquotient))).mpr hquotient
  have hgrid : f.place (numerator / denominator) = place := by
    unfold Format.place at hplace hfiner ⊢
    omega
  rw [roundedUnits_eq_of_half_step hpos hgrid hhalf fun _ ↦ ?_, ← hunits]
  rw [hdigits, Nat.pow_succ]
  exact ⟨2 ^ digits, Nat.mul_two _⟩

/-- The last place of a quotient is not coarser than that of a number near it. -/
theorem place_le_of_two_mul_abs_sub_lt (hunits : 2 ^ f.place units ∣ units)
    (hnear : 2 * |(numerator : ℚ) / denominator - units| < 2 ^ f.place units) :
    f.place (numerator / denominator) ≤ f.place units := by
  by_contra hplace
  have hquotient : ((2 ^ f.precision * 2 ^ f.place units : ℕ) : ℚ) ≤ numerator / denominator :=
    (Nat.cast_le.mpr (f.two_pow_mul_le_of_place_lt (Nat.lt_of_not_le hplace))).trans
      Nat.cast_div_le
  have hnext : (units + 2 ^ f.place units : ℚ) ≤ (2 ^ f.precision * 2 ^ f.place units : ℕ) :=
    mod_cast f.add_two_pow_place_le hunits
  have habove := le_abs_self ((numerator : ℚ) / denominator - units)
  have hstep : (0 : ℚ) < 2 ^ f.place units := by positivity
  linarith

/-- A relative error of half that size is undone by rounding. -/
theorem roundedUnits_eq_of_abs_sub_le (hpos : 0 < denominator) (hunits : 2 ^ f.place units ∣ units)
    (h : |(numerator : ℚ) / denominator - units| * 2 ^ (f.precision + 1) ≤ units) :
    roundedUnits f numerator denominator = units := by
  rw [pow_succ'] at h
  have hnear := mul_abs_sub_lt_two_pow_place h
  rcases Nat.lt_or_eq_of_le (place_le_of_two_mul_abs_sub_lt hunits hnear) with hplace | hplace
  · exact roundedUnits_eq_of_place_lt hpos hunits hplace h
  · obtain ⟨count, hcount⟩ := hunits
    rw [Nat.mul_comm] at hcount
    have hcast : (units : ℚ) = count * 2 ^ f.place units := mod_cast hcount
    rw [hcast] at hnear
    have hrounded := roundedUnits_eq_of_half_step hpos hplace hnear.le fun hhalf ↦
      absurd hhalf hnear.ne
    rw [hrounded, ← hcount]

/-- A quotient that fills the digits of the format is rounded with a relative error of at most
`2 ^ -precision`. -/
theorem abs_sub_roundedUnits_mul_le (hpos : 0 < denominator)
    (hnormal : 2 ^ (f.precision - 1) ≤ numerator / denominator) :
    |(numerator : ℚ) / denominator - roundedUnits f numerator denominator| * 2 ^ f.precision ≤
      numerator / denominator := by
  have hne : numerator / denominator ≠ 0 :=
    Nat.ne_of_gt (Nat.lt_of_lt_of_le (Nat.two_pow_pos _) hnormal)
  have hlog : f.precision - 1 ≤ (numerator / denominator).log2 := (Nat.le_log2 hne).mpr hnormal
  have hplace : f.place (numerator / denominator) + f.precision =
      (numerator / denominator).log2 + 1 := by
    have := f.one_lt_precision
    unfold Format.place
    omega
  have hstep : (2 ^ f.place (numerator / denominator) * 2 ^ f.precision : ℚ) ≤
      2 * (numerator / denominator : ℕ) := by
    rw [← pow_add, hplace, pow_succ, mul_comm]
    have := Nat.log2_self_le hne
    exact mul_le_mul_of_nonneg_left (mod_cast this) (by norm_num)
  have hfloor : ((numerator / denominator : ℕ) : ℚ) ≤ numerator / denominator := Nat.cast_div_le
  have hhalf : 2 * |(numerator : ℚ) / denominator - roundedUnits f numerator denominator| ≤
      2 ^ f.place (numerator / denominator) := two_mul_abs_sub_roundedUnits_le hpos
  have hscaled := mul_le_mul_of_nonneg_right hhalf (by positivity : (0 : ℚ) ≤ 2 ^ f.precision)
  linarith

end Errors

end Binary

end FloatPolynomial
