import Mathlib.Algebra.Order.Field.Basic
import Mathlib.Algebra.Order.Field.Rat
import Mathlib.Data.Nat.Cast.Order.Field
import Mathlib.Data.Nat.Log
import Mathlib.Tactic.FieldSimp
import Mathlib.Tactic.Linarith
import Mathlib.Tactic.NormNum
import Mathlib.Tactic.Ring
import FloatPolynomial.Proofs.Binary.Differences

/-!
# Rounding Is Correct

The specification of rounding, in exact rational values.  A quotient is rounded to the nearest
integer and a half to the even one, `RoundsNearestEven`; a number of units is rounded to a number
of the format to which no other one is nearer, `isNearest_round`.  Both follow from one fact on
either side: rounding does not pass an integer, and it does not pass a number of the format.
-/

namespace FloatPolynomial

/-- The integer is the nearest one, and it is even if another one is as near. -/
structure RoundsNearestEven (exact : ℚ) (rounded : ℕ) : Prop where
  nearest : |exact - rounded| ≤ 1 / 2
  even : |exact - rounded| = 1 / 2 → Even rounded

theorem RoundsNearestEven.abs_sub_le_abs_sub {exact : ℚ} {rounded : ℕ}
    (h : RoundsNearestEven exact rounded) (other : ℕ) : |exact - rounded| ≤ |exact - other| := by
  rcases eq_or_ne rounded other with rfl | hne
  · exact le_rfl
  have hgap : (1 : ℚ) ≤ |(rounded : ℚ) - other| := by
    have hdifference : (rounded : ℤ) - other ≠ 0 := sub_ne_zero.mpr (Nat.cast_injective.ne hne)
    exact_mod_cast Int.one_le_abs hdifference
  have htriangle : |(rounded : ℚ) - other| ≤ |exact - rounded| + |exact - other| := by
    rw [abs_sub_comm exact]
    exact abs_sub_le ..
  linarith [h.nearest]

/-- An integer is rounded to itself. -/
theorem RoundsNearestEven.eq_of_natCast {exact rounded : ℕ} (h : RoundsNearestEven exact rounded) :
    rounded = exact := by
  have hle := h.abs_sub_le_abs_sub exact
  rw [sub_self, abs_zero, abs_nonpos_iff, sub_eq_zero] at hle
  exact (Nat.cast_injective hle).symm

/-- At most one integer is meant: of two that are equally near one is odd. -/
theorem RoundsNearestEven.unique {exact : ℚ} {m n : ℕ} (hm : RoundsNearestEven exact m)
    (hn : RoundsNearestEven exact n) : m = n := by
  wlog hle : m ≤ n generalizing m n
  · exact (this hn hm (Nat.le_of_not_le hle)).symm
  rcases Nat.eq_or_lt_of_le hle with heq | hlt
  · exact heq
  have hgap : (m : ℚ) + 1 ≤ n := mod_cast hlt
  have habove := (abs_le.mp hm.nearest).2
  have hbelow := (abs_le.mp hn.nearest).1
  have hmhalf : exact - m = 1 / 2 := by linarith
  have hnhalf : exact - n = -(1 / 2) := by linarith
  obtain ⟨i, rfl⟩ := hm.even (by rw [hmhalf, abs_of_pos (by norm_num)])
  obtain ⟨j, rfl⟩ := hn.even (by rw [hnhalf, abs_neg, abs_of_pos (by norm_num)])
  have hnext : ((j + j : ℕ) : ℚ) = (i + i : ℕ) + 1 := by linarith
  have : j + j = i + i + 1 := mod_cast hnext
  omega

section Quotients

variable {numerator denominator bound : ℕ}

theorem nearestQuotient_le (hpos : 0 < denominator) (h : numerator ≤ bound * denominator) :
    nearestQuotient numerator denominator ≤ bound := by
  have hrounded := two_mul_nearestQuotient_mul_le numerator hpos
  by_contra hlt
  have hstep : (bound + 1) * denominator ≤ nearestQuotient numerator denominator * denominator :=
    Nat.mul_le_mul_right _ (by omega)
  rw [Nat.add_mul, Nat.one_mul] at hstep
  omega

theorem le_nearestQuotient (hpos : 0 < denominator) (h : bound * denominator ≤ numerator) :
    bound ≤ nearestQuotient numerator denominator :=
  Nat.le_trans ((Nat.le_div_iff_mul_le hpos).mpr h) (div_le_nearestQuotient ..)

/-- Of two nearest integers the even one is taken. -/
theorem even_nearestQuotient (hpos : 0 < denominator)
    (h : 2 * numerator = 2 * (nearestQuotient numerator denominator * denominator) + denominator ∨
      2 * numerator + denominator = 2 * (nearestQuotient numerator denominator * denominator)) :
    Even (nearestQuotient numerator denominator) := by
  have hdiv := Nat.div_add_mod numerator denominator
  have hlt := Nat.mod_lt numerator hpos
  have hcomm := Nat.mul_comm denominator (numerator / denominator)
  unfold nearestQuotient at h ⊢
  dsimp only at h ⊢
  split at h
  · omega
  · split at h
    · rw [Nat.add_mul] at h
      omega
    · rename_i hbelow habove
      rw [if_neg hbelow, if_neg habove, Nat.even_iff]
      omega

theorem abs_div_sub (hpos : 0 < denominator) (rounded : ℕ) :
    |(numerator : ℚ) / denominator - rounded| =
      |(numerator : ℚ) - rounded * denominator| / denominator := by
  have hdenominator : (0 : ℚ) < denominator := Nat.cast_pos.mpr hpos
  rw [div_sub' hdenominator.ne', abs_div, abs_of_pos hdenominator, mul_comm (denominator : ℚ)]

theorem roundsNearestEven_nearestQuotient (numerator : ℕ) (hpos : 0 < denominator) :
    RoundsNearestEven (numerator / denominator) (nearestQuotient numerator denominator) := by
  have hdenominator : (0 : ℚ) < denominator := Nat.cast_pos.mpr hpos
  constructor
  · have habove : (2 * (nearestQuotient numerator denominator * denominator) : ℚ) ≤
        2 * numerator + denominator := mod_cast two_mul_nearestQuotient_mul_le numerator hpos
    have hbelow : (2 * numerator : ℚ) ≤
        2 * (nearestQuotient numerator denominator * denominator) + denominator :=
      mod_cast two_mul_le_nearestQuotient_mul numerator hpos
    rw [abs_div_sub hpos, div_le_iff₀ hdenominator, abs_le]
    constructor <;> linarith
  · intro hhalf
    rw [abs_div_sub hpos, div_eq_iff hdenominator.ne', abs_eq (by positivity)] at hhalf
    apply even_nearestQuotient hpos
    rcases hhalf with habove | hbelow
    · left
      have : (2 * numerator : ℚ) =
          2 * (nearestQuotient numerator denominator * denominator) + denominator := by linarith
      exact_mod_cast this
    · right
      have : (2 * numerator + denominator : ℚ) =
          2 * (nearestQuotient numerator denominator * denominator) := by linarith
      exact_mod_cast this

end Quotients

/-! ## Rounding to a number of the format -/

namespace Binary

variable {f : Format} {numerator denominator units : ℕ}

/-- A number of the format is not passed from below. -/
theorem roundedUnits_le (hpos : 0 < denominator) (hunits : 2 ^ f.place units ∣ units)
    (h : numerator ≤ units * denominator) : roundedUnits f numerator denominator ≤ units := by
  let step := 2 ^ f.place (numerator / denominator)
  have hquotient : numerator / denominator ≤ units :=
    Nat.div_le_of_le_mul (by rwa [Nat.mul_comm])
  have hstep : step ∣ units := (Nat.pow_dvd_pow 2 (f.place_le_place hquotient)).trans hunits
  obtain ⟨count, rfl⟩ := hstep
  calc
    roundedUnits f numerator denominator =
        nearestQuotient numerator (denominator * step) * step := rfl
    _ ≤ count * step := by
      apply Nat.mul_le_mul_right
      apply nearestQuotient_le (Nat.mul_pos hpos (Nat.two_pow_pos _))
      rwa [Nat.mul_comm denominator, ← Nat.mul_assoc, Nat.mul_comm count]
    _ = step * count := Nat.mul_comm ..

/-- A number of the format is not passed from above. -/
theorem le_roundedUnits (hpos : 0 < denominator) (hunits : 2 ^ f.place units ∣ units)
    (h : units * denominator ≤ numerator) : units ≤ roundedUnits f numerator denominator := by
  let step := 2 ^ f.place (numerator / denominator)
  have hquotient : units ≤ numerator / denominator := (Nat.le_div_iff_mul_le hpos).mpr h
  rcases Nat.eq_or_lt_of_le (f.place_le_place hquotient) with hplace | hplace
  · rw [hplace] at hunits
    obtain ⟨count, hcount⟩ := hunits
    calc
      units = count * step := by rw [hcount, Nat.mul_comm]
      _ ≤ nearestQuotient numerator (denominator * step) * step := by
        apply Nat.mul_le_mul_right
        apply le_nearestQuotient (Nat.mul_pos hpos (Nat.two_pow_pos _))
        rwa [Nat.mul_left_comm, Nat.mul_comm count, ← hcount, Nat.mul_comm]
  -- A number with a finer last digit lies below a power of two, which rounding does not cross.
  · exact Nat.le_trans (Nat.le_of_lt (f.lt_two_pow_log2_of_place_lt hplace))
      (two_pow_log2_le_roundedUnits (f.ne_zero_of_place_lt hplace))

/-- What is rounded has no digit after its last place. -/
theorem dvd_roundedUnits (hpos : 0 < denominator) :
    2 ^ f.place (roundedUnits f numerator denominator) ∣ roundedUnits f numerator denominator := by
  apply f.dvd_mul_two_pow
  apply nearestQuotient_le (Nat.mul_pos hpos (Nat.two_pow_pos _))
  rw [Nat.mul_left_comm, Nat.mul_comm denominator]
  exact Nat.le_of_lt ((Nat.div_lt_iff_lt_mul hpos).mp (f.lt_two_pow_place _))

theorem representable_roundedUnits (hpos : 0 < denominator)
    (h : roundedUnits f numerator denominator < f.bound) :
    f.Representable (roundedUnits f numerator denominator) :=
  ⟨dvd_roundedUnits hpos, h⟩

/-- The result of rounding is finite unless it reaches the bound of the format. -/
theorem round_eq_roundedUnits (negative : Bool) (hpos : 0 < denominator)
    (h : roundedUnits f numerator denominator < f.bound) :
    round f negative numerator denominator =
      finite negative (roundedUnits f numerator denominator) (representable_roundedUnits hpos h) :=
  dif_pos (representable_roundedUnits hpos h)

/-- Distances on a grid of the given step, counted in steps. -/
theorem abs_div_sub_mul_two_pow (numerator denominator place count : ℕ) :
    |(numerator : ℚ) / denominator - (count * 2 ^ place : ℕ)| =
      |(numerator : ℚ) / (denominator * 2 ^ place : ℕ) - count| * 2 ^ place := by
  have hstep : (0 : ℚ) < 2 ^ place := by positivity
  calc
    _ = |((numerator : ℚ) / (denominator * 2 ^ place : ℕ) - count) * 2 ^ place| := by
      push_cast
      rw [sub_mul, ← div_div, div_mul_cancel₀ _ hstep.ne']
    _ = _ := by rw [abs_mul, abs_of_pos hstep]

/-- The error is at most half a step. -/
theorem two_mul_abs_sub_roundedUnits_le (hpos : 0 < denominator) :
    2 * |(numerator : ℚ) / denominator - roundedUnits f numerator denominator| ≤
      2 ^ f.place (numerator / denominator) := by
  have hnearest : |_| ≤ _ := (roundsNearestEven_nearestQuotient numerator
    (Nat.mul_pos hpos (Nat.two_pow_pos (f.place (numerator / denominator))))).nearest
  have hstep : (0 : ℚ) < 2 ^ f.place (numerator / denominator) := by positivity
  rw [roundedUnits, abs_div_sub_mul_two_pow]
  linarith [mul_le_mul_of_nonneg_right hnearest hstep.le]

theorem abs_sub_roundedUnits_le_of_dvd (hpos : 0 < denominator)
    (hunits : 2 ^ f.place (numerator / denominator) ∣ units) :
    |(numerator : ℚ) / denominator - roundedUnits f numerator denominator| ≤
      |(numerator : ℚ) / denominator - units| := by
  obtain ⟨count, rfl⟩ := hunits
  rw [Nat.mul_comm _ count, abs_div_sub_mul_two_pow, roundedUnits, abs_div_sub_mul_two_pow]
  apply mul_le_mul_of_nonneg_right _ (by positivity)
  exact (roundsNearestEven_nearestQuotient numerator
    (Nat.mul_pos hpos (Nat.two_pow_pos _))).abs_sub_le_abs_sub count

/-- No number of the format is nearer than the one that a quotient is rounded to. -/
theorem abs_sub_roundedUnits_le (hpos : 0 < denominator) (hunits : 2 ^ f.place units ∣ units) :
    |(numerator : ℚ) / denominator - roundedUnits f numerator denominator| ≤
      |(numerator : ℚ) / denominator - units| := by
  rcases Nat.lt_or_ge (f.place units) (f.place (numerator / denominator)) with hplace | hplace
  -- A number with a finer last digit is farther away than a power of two.
  · let power := 2 ^ (numerator / denominator).log2
    have hexact : (power : ℚ) ≤ (numerator : ℚ) / denominator :=
      (Nat.cast_le.mpr (Nat.log2_self_le (f.ne_zero_of_place_lt hplace))).trans Nat.cast_div_le
    have hunits : (units : ℚ) ≤ power :=
      Nat.cast_le.mpr (Nat.le_of_lt (f.lt_two_pow_log2_of_place_lt hplace))
    calc
      |(numerator : ℚ) / denominator - roundedUnits f numerator denominator| ≤
          |(numerator : ℚ) / denominator - power| :=
        abs_sub_roundedUnits_le_of_dvd hpos (Nat.pow_dvd_pow 2 (f.place_le_log2 _))
      _ = (numerator : ℚ) / denominator - power := abs_of_nonneg (sub_nonneg.mpr hexact)
      _ ≤ (numerator : ℚ) / denominator - units := by linarith
      _ ≤ |(numerator : ℚ) / denominator - units| := le_abs_self _
  · exact abs_sub_roundedUnits_le_of_dvd hpos ((Nat.pow_dvd_pow 2 hplace).trans hunits)

/-- The exact value of a number; zero for infinities and non-numbers. -/
def value : Binary f → ℚ
  | finite negative units _ => signedUnits negative units / 2 ^ f.scale
  | _ => 0

theorem abs_signedUnits (negative : Bool) (units : ℕ) :
    |(signedUnits negative units : ℚ)| = units := by
  rw [← Int.cast_abs, Int.abs_eq_natAbs, natAbs_signedUnits, Int.cast_natCast]

/-- A sign in common does not show in a distance. -/
theorem abs_signedUnits_div_sub (negative : Bool) (m n : ℕ) (denominator : ℚ) :
    |(signedUnits negative m : ℚ) / denominator - signedUnits negative n| =
      |(m : ℚ) / denominator - n| := by
  cases negative with
  | false => rfl
  | true =>
    rw [← abs_neg]
    congr 1
    simp only [signedUnits, if_true]
    push_cast
    ring

@[simp]
theorem value_finite (negative : Bool) (h : f.Representable units) :
    (finite negative units h).value = signedUnits negative units / 2 ^ f.scale := rfl

@[simp]
theorem abs_value_finite (negative : Bool) (h : f.Representable units) :
    |(finite negative units h).value| = units / 2 ^ f.scale := by
  rw [value_finite, abs_div, abs_signedUnits, abs_of_pos (by positivity)]

/-- The number is finite, and no other one is nearer to the exact value. -/
structure IsNearest (exact : ℚ) (x : Binary f) : Prop where
  finite : x.isFinite = true
  nearest : ∀ y : Binary f, y.isFinite = true → |exact - x.value| ≤ |exact - y.value|

/-- Rounding finds a nearest number, unless it reaches the bound of the format. -/
theorem isNearest_round (negative : Bool) (hpos : 0 < denominator)
    (h : roundedUnits f numerator denominator < f.bound) :
    IsNearest (signedUnits negative numerator / (denominator * 2 ^ f.scale))
      (round f negative numerator denominator) where
  finite := by
    rw [round_eq_roundedUnits negative hpos h]
    rfl
  nearest := by
    intro y hy
    obtain _ | _ | ⟨other, units, hunits⟩ := y
    · cases hy
    · cases hy
    have hscale : (0 : ℚ) < 2 ^ f.scale := by positivity
    have hexact : |(signedUnits negative numerator : ℚ) / (denominator * 2 ^ f.scale)| =
        numerator / denominator / 2 ^ f.scale := by
      rw [abs_div, abs_signedUnits, abs_of_pos (by positivity), div_div]
    calc
      |(signedUnits negative numerator : ℚ) / (denominator * 2 ^ f.scale) -
          (round f negative numerator denominator).value| =
          |(numerator : ℚ) / denominator - roundedUnits f numerator denominator| /
            2 ^ f.scale := by
        rw [round_eq_roundedUnits negative hpos h, value_finite, ← div_div, ← sub_div, abs_div,
          abs_of_pos hscale, abs_signedUnits_div_sub]
      _ ≤ |(numerator : ℚ) / denominator - units| / 2 ^ f.scale :=
        div_le_div_of_nonneg_right (abs_sub_roundedUnits_le hpos hunits.1) hscale.le
      _ = |(numerator : ℚ) / denominator / 2 ^ f.scale - units / 2 ^ f.scale| := by
        rw [← sub_div, abs_div, abs_of_pos hscale]
      _ ≤ |(signedUnits negative numerator : ℚ) / (denominator * 2 ^ f.scale) -
          (finite other units hunits).value| := by
        rw [← hexact, ← abs_value_finite other hunits]
        exact abs_abs_sub_abs_le_abs_sub ..

end Binary

end FloatPolynomial
