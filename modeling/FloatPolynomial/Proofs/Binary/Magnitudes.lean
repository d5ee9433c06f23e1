import FloatPolynomial.Binary.Arithmetic

/-!
# Sizes of Rounded Numbers

Rounding does not cross a power of two: a quotient of at least one unit keeps the power of two
below it.  Hence nothing but a quotient of less than one unit is rounded to zero, and a quotient
that reaches the bound of the format is rounded to infinity.  Products of numbers that are not less
than one in magnitude are not less than one, however often they are rounded.
-/

namespace FloatPolynomial

namespace Format

variable (f : Format)

theorem place_le_log2 (units : Nat) : f.place units ≤ units.log2 := by
  have hprecision := f.one_lt_precision
  unfold place
  omega

theorem place_le_place {m n : Nat} (h : m ≤ n) : f.place m ≤ f.place n := by
  have hlog : m.log2 ≤ n.log2 := by
    rcases Nat.eq_zero_or_pos m with rfl | hpos
    · exact Nat.zero_le _
    have hm : m ≠ 0 := Nat.ne_of_gt hpos
    exact (Nat.le_log2 (Nat.ne_of_gt (Nat.lt_of_lt_of_le hpos h))).mpr
      (Nat.le_trans (Nat.log2_self_le hm) h)
  unfold place
  omega

/-- At most `2 ^ precision` multiples of a power of two have no digit after their last place. -/
theorem dvd_mul_two_pow {count : Nat} (h : count ≤ 2 ^ f.precision) (exponent : Nat) :
    2 ^ f.place (count * 2 ^ exponent) ∣ count * 2 ^ exponent := by
  have hprecision := f.one_lt_precision
  rcases Nat.eq_or_lt_of_le h with rfl | hlt
  · rw [← Nat.pow_add, place, Nat.log2_two_pow]
    exact Nat.pow_dvd_pow 2 (by omega)
  rcases Nat.eq_zero_or_pos count with rfl | hpos
  · rw [Nat.zero_mul]
    exact Nat.dvd_zero _
  have hlog : (count * 2 ^ exponent).log2 < f.precision + exponent := by
    rw [Nat.log2_lt (Nat.ne_of_gt (Nat.mul_pos hpos (Nat.two_pow_pos _))), Nat.pow_add]
    exact Nat.mul_lt_mul_of_pos_right hlt (Nat.two_pow_pos _)
  have hplace : f.place (count * 2 ^ exponent) ≤ exponent := by
    unfold place
    omega
  exact Nat.dvd_mul_left_of_dvd (Nat.pow_dvd_pow 2 hplace) count

/-- A number has at most `precision` digits up to its last place. -/
theorem lt_two_pow_place (units : Nat) : units < 2 ^ f.precision * 2 ^ f.place units := by
  have hlog : units.log2 + 1 ≤ f.precision + f.place units := by
    unfold place
    omega
  rw [← Nat.pow_add]
  exact Nat.lt_of_lt_of_le Nat.lt_log2_self (Nat.pow_le_pow_right (by decide) hlog)

/-- Where the last place is above the unit, it follows from the leading digit. -/
theorem log2_eq_of_place_pos {units : Nat} (h : 0 < f.place units) :
    units.log2 = f.precision - 1 + f.place units := by
  have hprecision := f.one_lt_precision
  unfold place at h ⊢
  omega

theorem ne_zero_of_place_lt {m n : Nat} (h : f.place m < f.place n) : n ≠ 0 := by
  rintro rfl
  rw [f.place_zero] at h
  exact absurd h (Nat.not_lt_zero _)

/-- Where the last place is above the unit, the leading digit is there. -/
theorem two_pow_mul_le_of_place_pos {units : Nat} (h : 0 < f.place units) :
    2 ^ (f.precision - 1) * 2 ^ f.place units ≤ units := by
  have hne : units ≠ 0 := by
    rintro rfl
    rw [f.place_zero] at h
    exact Nat.lt_irrefl 0 h
  rw [← Nat.pow_add, ← f.log2_eq_of_place_pos h]
  exact Nat.log2_self_le hne

/-- A number with a finer last place lies below the leading digit. -/
theorem lt_two_pow_log2_of_place_lt {m n : Nat} (h : f.place m < f.place n) :
    m < 2 ^ n.log2 := by
  have hlog : m.log2 + 1 ≤ n.log2 := by
    unfold place at h
    omega
  exact Nat.lt_of_lt_of_le Nat.lt_log2_self (Nat.pow_le_pow_right (by decide) hlog)

/-- A number with a coarser last place has more digits above the finer one. -/
theorem two_pow_mul_le_of_place_lt {m n : Nat} (h : f.place m < f.place n) :
    2 ^ f.precision * 2 ^ f.place m ≤ n := by
  have hlog : f.precision + f.place m ≤ n.log2 := by
    have hplace := f.log2_eq_of_place_pos (Nat.zero_lt_of_lt h)
    have hprecision := f.one_lt_precision
    omega
  rw [← Nat.pow_add]
  exact (Nat.le_log2 (f.ne_zero_of_place_lt h)).mp hlog

/-- The next number after its last place is at most the next power of two. -/
theorem add_two_pow_place_le {units : Nat} (h : 2 ^ f.place units ∣ units) :
    units + 2 ^ f.place units ≤ 2 ^ f.precision * 2 ^ f.place units := by
  have hlt := f.lt_two_pow_place units
  obtain ⟨count, hcount⟩ := h
  generalize f.place units = place at hcount hlt ⊢
  subst hcount
  rw [Nat.mul_comm] at hlt ⊢
  rw [← Nat.succ_mul]
  exact Nat.mul_le_mul_right _ (Nat.lt_of_mul_lt_mul_right hlt)

end Format

namespace Binary

variable {f : Format}

theorem two_pow_log2_le_roundedUnits {numerator denominator : Nat}
    (h : numerator / denominator ≠ 0) :
    2 ^ (numerator / denominator).log2 ≤ roundedUnits f numerator denominator := by
  let units := numerator / denominator
  have hplace : f.place units ≤ units.log2 := f.place_le_log2 units
  have hsplit : 2 ^ (units.log2 - f.place units) * 2 ^ f.place units = 2 ^ units.log2 := by
    rw [← Nat.pow_add, Nat.sub_add_cancel hplace]
  have hquotient : 2 ^ (units.log2 - f.place units) ≤ units / 2 ^ f.place units := by
    rw [Nat.le_div_iff_mul_le (Nat.two_pow_pos _), hsplit]
    exact Nat.log2_self_le h
  calc
    2 ^ units.log2 = 2 ^ (units.log2 - f.place units) * 2 ^ f.place units := hsplit.symm
    _ ≤ units / 2 ^ f.place units * 2 ^ f.place units := Nat.mul_le_mul_right _ hquotient
    _ = numerator / (denominator * 2 ^ f.place units) * 2 ^ f.place units := by
        rw [Nat.div_div_eq_div_mul]
    _ ≤ roundedUnits f numerator denominator :=
        Nat.mul_le_mul_right _ (div_le_nearestQuotient ..)

/-- What is not less than one unit is not rounded to zero. -/
theorem isZero_round_units {units : Nat} (negative : Bool) (hpos : 0 < units) :
    (round f negative units 1).isZero = false := by
  have hunits : units / 1 ≠ 0 := by
    rw [Nat.div_one]
    exact Nat.ne_of_gt hpos
  have hrounded : 0 < roundedUnits f units 1 :=
    Nat.lt_of_lt_of_le (Nat.two_pow_pos _) (two_pow_log2_le_roundedUnits hunits)
  unfold round ofUnits
  split
  · exact beq_eq_false_iff_ne.mpr (Nat.ne_of_gt hrounded)
  · rfl

/-- What is less than half a unit is rounded to zero. -/
theorem round_eq_zero {numerator denominator : Nat} (negative : Bool)
    (h : 2 * numerator < denominator) :
    round f negative numerator denominator = finite negative 0 f.representable_zero := by
  have hlt : numerator < denominator := by omega
  have hrounded : roundedUnits f numerator denominator = 0 := by
    rw [roundedUnits, Nat.div_eq_of_lt hlt, f.place_zero, Nat.pow_zero, Nat.mul_one,
      Nat.mul_one, nearestQuotient, Nat.mod_eq_of_lt hlt, Nat.div_eq_of_lt hlt]
    exact if_pos h
  rw [round, hrounded, ofUnits, dif_pos f.representable_zero]

/-- What reaches the bound of the format is rounded to infinity. -/
theorem round_eq_infinite {numerator denominator : Nat} (negative : Bool) (hpos : 0 < denominator)
    (h : f.bound * denominator ≤ numerator) :
    round f negative numerator denominator = infinite negative := by
  have hunits : f.bound ≤ numerator / denominator := (Nat.le_div_iff_mul_le hpos).mpr h
  have hne : numerator / denominator ≠ 0 :=
    Nat.ne_of_gt (Nat.lt_of_lt_of_le (Nat.two_pow_pos _) hunits)
  have hlog : f.precision + f.maxPlace ≤ (numerator / denominator).log2 :=
    (Nat.le_log2 hne).mpr hunits
  have hrounded : f.bound ≤ roundedUnits f numerator denominator :=
    Nat.le_trans (Nat.pow_le_pow_right (by decide) hlog) (two_pow_log2_le_roundedUnits hne)
  rw [round, ofUnits, dif_neg fun hrep ↦ Nat.not_lt.mpr hrounded hrep.2]

/-- The magnitude is one or more, infinity included, or the number is none. -/
def ReachesOne : Binary f → Prop
  | finite _ units _ => 2 ^ f.scale ≤ units
  | _ => True

instance : DecidablePred (ReachesOne (f := f))
  | nan => isTrue trivial
  | infinite _ => isTrue trivial
  | finite _ units _ => inferInstanceAs (Decidable (2 ^ f.scale ≤ units))

theorem reachesOne_one : ReachesOne (1 : Binary f) :=
  Nat.le_refl _

theorem ReachesOne.isZero {x : Binary f} (h : x.ReachesOne) : x.isZero = false := by
  rcases x with _ | negative | ⟨negative, units, hunits⟩
  · rfl
  · rfl
  · exact beq_eq_false_iff_ne.mpr (Nat.ne_of_gt (Nat.lt_of_lt_of_le (Nat.two_pow_pos _) h))

theorem reachesOne_round {numerator denominator : Nat} (negative : Bool)
    (h : 2 ^ f.scale ≤ numerator / denominator) :
    (round f negative numerator denominator).ReachesOne := by
  have hne : numerator / denominator ≠ 0 :=
    Nat.ne_of_gt (Nat.lt_of_lt_of_le (Nat.two_pow_pos _) h)
  unfold round ofUnits
  split
  · calc
      2 ^ f.scale ≤ 2 ^ (numerator / denominator).log2 :=
        Nat.pow_le_pow_right (by decide) ((Nat.le_log2 hne).mpr h)
      _ ≤ roundedUnits f numerator denominator := two_pow_log2_le_roundedUnits hne
  · trivial

theorem ReachesOne.mul {x y : Binary f} (hx : x.ReachesOne) (hy : y.ReachesOne) :
    (x * y).ReachesOne := by
  have hpos {units : Nat} (h : 2 ^ f.scale ≤ units) : units ≠ 0 :=
    Nat.ne_of_gt (Nat.lt_of_lt_of_le (Nat.two_pow_pos _) h)
  rcases x with _ | a | ⟨a, m, hm⟩ <;> rcases y with _ | b | ⟨b, n, hn⟩
  case infinite.finite =>
    change ReachesOne (if n = 0 then nan else infinite (a ^^ b) : Binary f)
    rw [if_neg (hpos hy)]
    trivial
  case finite.infinite =>
    change ReachesOne (if m = 0 then nan else infinite (a ^^ b) : Binary f)
    rw [if_neg (hpos hx)]
    trivial
  case finite.finite =>
    apply reachesOne_round
    rw [Nat.le_div_iff_mul_le (Nat.two_pow_pos _)]
    exact Nat.mul_le_mul hx hy
  all_goals trivial

end Binary

end FloatPolynomial
