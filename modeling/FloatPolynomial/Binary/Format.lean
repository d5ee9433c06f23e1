import FloatPolynomial.Rounding

/-!
# Binary Floating-Point Formats

A format fixes how many binary digits a number keeps and how far its exponents reach.  The least
positive number of a format is its *unit*; every finite number is a whole number of units, and
which whole numbers occur is `Format.Representable`.
-/

namespace FloatPolynomial

/-- The width of a binary floating-point format: `precision` significant digits, the leading one
included, and `exponentBits` bits of exponent. -/
structure Format where
  precision : Nat
  exponentBits : Nat
  one_lt_precision : 1 < precision := by decide
  precision_lt : precision < 2 ^ (exponentBits - 1) := by decide
  deriving DecidableEq

namespace Format

/-- The 32-bit interchange format. -/
def single : Format where
  precision := 24
  exponentBits := 8

/-- The 64-bit interchange format. -/
def double : Format where
  precision := 53
  exponentBits := 11

/-- The number one is `2 ^ scale` units. -/
def scale (f : Format) : Nat :=
  2 ^ (f.exponentBits - 1) - 3 + f.precision

/-- The last digit of the largest finite numbers is worth `2 ^ maxPlace` units. -/
def maxPlace (f : Format) : Nat :=
  2 ^ f.exponentBits - 3

/-- A number of `units` units, rounded down to a whole one, has a last digit worth
`2 ^ place units`. -/
def place (f : Format) (units : Nat) : Nat :=
  units.log2 + 1 - f.precision

/-- Every finite number lies strictly below this many units. -/
def bound (f : Format) : Nat :=
  2 ^ (f.precision + f.maxPlace)

/-- The numbers of units that the format holds: those with no digit after their last place, up
to the largest. -/
def Representable (f : Format) (units : Nat) : Prop :=
  2 ^ f.place units ∣ units ∧ units < f.bound

instance (f : Format) (units : Nat) : Decidable (f.Representable units) :=
  inferInstanceAs (Decidable (_ ∧ _))

@[simp]
theorem place_zero (f : Format) : f.place 0 = 0 := by
  have := f.one_lt_precision
  simp [place]
  omega

theorem representable_zero (f : Format) : f.Representable 0 :=
  ⟨Nat.dvd_zero _, Nat.two_pow_pos _⟩

theorem exponentBits_pos (f : Format) : 0 < f.exponentBits := by
  have hprecision := f.one_lt_precision
  have hlt := f.precision_lt
  refine Nat.pos_of_ne_zero fun hzero ↦ ?_
  rw [hzero] at hlt
  simp at hlt
  omega

theorem two_pow_exponentBits (f : Format) :
    2 ^ f.exponentBits = 2 * 2 ^ (f.exponentBits - 1) := by
  have h := f.exponentBits_pos
  rw [← Nat.pow_succ', Nat.succ_eq_add_one, Nat.sub_add_cancel h]

/-- The number one, and every whole number of at most `precision` binary digits, is in range. -/
theorem scale_lt_maxPlace (f : Format) : f.scale < f.maxPlace := by
  have hprecision := f.one_lt_precision
  have hlt := f.precision_lt
  have hpow := f.two_pow_exponentBits
  unfold scale maxPlace
  omega

theorem representable_two_pow (f : Format) {exponent : Nat}
    (h : exponent < f.precision + f.maxPlace) : f.Representable (2 ^ exponent) := by
  have hprecision := f.one_lt_precision
  constructor
  · rw [place, Nat.log2_two_pow]
    exact Nat.pow_dvd_pow 2 (by omega)
  · exact Nat.pow_lt_pow_right (by decide) h

theorem representable_one (f : Format) : f.Representable (2 ^ f.scale) :=
  f.representable_two_pow (by have := f.scale_lt_maxPlace; omega)

end Format

end FloatPolynomial
