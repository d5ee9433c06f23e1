import FloatPolynomial.Binary.Encoding
import FloatPolynomial.Proofs.Binary.CorrectRounding
import FloatPolynomial.Proofs.Binary.Integers
import FloatPolynomial.Proofs.Coefficients
import FloatPolynomial.Proofs.Text.RoundTrip

/-!
# Printing With a Precision

A precision rounds what is written and nothing else: the text is still read as one term for each
term, with its power and its sign.  `Term.RoundedTo` says what becomes of a coefficient.  A
coefficient one in front of the variable is not written, so it is kept; any other is rounded twice,
to the places of the text when it is written and to the format when it is read.  With as many
places as the unit of the format has, neither changes it.
-/

namespace FloatPolynomial

variable {f : Format}

/-- Every number of the format is at most an integer of the format. -/
theorem Format.Representable.exists_integer_ge {units : ℕ} (h : f.Representable units) :
    ∃ magnitude, f.Representable (magnitude * 2 ^ f.scale) ∧ units ≤ magnitude * 2 ^ f.scale := by
  rcases Nat.lt_or_ge (f.place units) f.scale with hplace | hplace
  -- The last digit is worth less than one, so the integer above needs no more digits.
  · have hunits : units < 2 ^ f.precision * 2 ^ f.scale :=
      Nat.lt_of_lt_of_le (f.lt_two_pow_place units)
        (Nat.mul_le_mul_left _ (Nat.pow_le_pow_right (by decide) (Nat.le_of_lt hplace)))
    refine ⟨units / 2 ^ f.scale + 1, f.representable_integer ?_, ?_⟩
    · exact (Nat.div_lt_iff_lt_mul (Nat.two_pow_pos _)).mpr hunits
    · exact Nat.le_of_lt (Nat.lt_mul_of_div_lt (Nat.lt_succ_self _) (Nat.two_pow_pos _))
  · obtain ⟨magnitude, hmagnitude⟩ := (Nat.pow_dvd_pow 2 hplace).trans h.1
    rw [Nat.mul_comm] at hmagnitude
    exact ⟨magnitude, hmagnitude ▸ h, Nat.le_of_eq hmagnitude⟩

namespace Binary

theorem isNegative_round (negative : Bool) (numerator denominator : ℕ) :
    (round f negative numerator denominator).isNegative = negative := by
  unfold round ofUnits
  split <;> rfl

/-- A finite number is its sign and its exact value. -/
theorem eq_of_value_eq {x y : Binary f} (hx : x.isFinite = true) (hy : y.isFinite = true)
    (hsign : x.isNegative = y.isNegative) (hvalue : x.value = y.value) : x = y := by
  obtain _ | _ | ⟨negative, m, hm⟩ := x
  · cases hx
  · cases hx
  obtain _ | _ | ⟨other, n, hn⟩ := y
  · cases hy
  · cases hy
  obtain rfl : negative = other := hsign
  have hunits : (m : ℚ) = n := by
    have habs := congrArg (|·|) hvalue
    rw [abs_value_finite, abs_value_finite] at habs
    exact (div_left_inj' (by positivity)).mp habs
  obtain rfl : m = n := Nat.cast_injective hunits
  rfl

end Binary

namespace Decimal

theorem nearest_places (negative : Bool) (significand places : ℕ) :
    nearest f negative ⟨significand, -(places : Int)⟩ =
      Binary.round f negative (significand * 2 ^ f.scale) (10 ^ places) := by
  have hwhole : (-(places : Int)).toNat = 0 := by omega
  have hplaces : (- -(places : Int)).toNat = places := by omega
  rw [nearest]
  dsimp only
  rw [hwhole, hplaces, Nat.pow_zero, Nat.mul_one]

theorem sign_mul_nearest (negative : Bool) (d : Decimal) :
    (if negative then -1 else 1) * d.nearest f false = d.nearest f negative := by
  cases negative with
  | false => exact Binary.one_mul _
  | true =>
    rw [if_pos rfl, Binary.neg_one_mul, nearest, Binary.neg_round]
    rfl

/-- The decimal that is written for a number is not beyond the numbers of the format. -/
theorem isNearest_fixed {units : ℕ} (h : f.Representable units) (places : ℕ) (negative : Bool) :
    Binary.IsNearest
      (Binary.signedUnits negative (fixed f places units).significand / 10 ^ places)
      ((fixed f places units).nearest f negative) := by
  have hten : 0 < 10 ^ places := Nat.pow_pos (by decide)
  obtain ⟨magnitude, hinteger, hle⟩ := h.exists_integer_ge
  have hsignificand : (fixed f places units).significand ≤ magnitude * 10 ^ places := by
    apply nearestQuotient_le (Nat.two_pow_pos _)
    rw [Nat.mul_right_comm]
    exact Nat.mul_le_mul_right _ hle
  have hrounded : Binary.roundedUnits f ((fixed f places units).significand * 2 ^ f.scale)
      (10 ^ places) < f.bound := by
    refine Nat.lt_of_le_of_lt (Binary.roundedUnits_le hten hinteger.1 ?_) hinteger.2
    rw [Nat.mul_right_comm]
    exact Nat.mul_le_mul_right _ hsignificand
  have hnearest := Binary.isNearest_round negative hten hrounded
  rw [Binary.signedUnits_mul_natCast] at hnearest
  push_cast at hnearest
  rw [mul_div_mul_right _ _ (by positivity)] at hnearest
  rw [fixed, nearest_places]
  exact hnearest

end Decimal

namespace Term

/-- The term `t` is what is read where `s` is written with a number of places: its coefficient has
the same sign, and it is the same if it is not written; otherwise it is nearest to the decimal that
is nearest to the exact value. -/
structure RoundedTo (places : ℕ) (s t : Term f) : Prop where
  power : t.power = s.power
  isNegative : t.coefficient.isNegative = s.coefficient.isNegative
  unwritten : s.Unwritten → t.coefficient = s.coefficient
  written : ¬s.Unwritten → ∃ significand : ℕ,
    RoundsNearestEven (|s.coefficient.value| * 10 ^ places) significand ∧
    t.coefficient = Decimal.nearest f s.coefficient.isNegative ⟨significand, -places⟩ ∧
    Binary.IsNearest (Binary.signedUnits s.coefficient.isNegative significand / 10 ^ places)
      t.coefficient

variable {style : NumberStyle} {sign : Option Char} {places : ℕ}

theorem coefficient_meaning_printed {t : Term f} (hsign : t.Signs sign) :
    ((t.printed style sign).meaning f).coefficient =
      (if t.coefficient.isNegative then -1 else 1) * (t.printed style sign).magnitude f := by
  have hminus : (t.printed style sign).sign = some '-' ↔ t.coefficient.isNegative = true :=
    hsign.minus
  rw [Piece.meaning]
  simp only [hminus]

theorem roundedTo_meaning_printed (hprecision : style.precision = some places) {t : Term f}
    (hfinite : t.coefficient.isFinite = true) (hsign : t.Signs sign) :
    RoundedTo places t ((t.printed style sign).meaning f) := by
  have hcoefficient : ((t.printed style sign).meaning f).coefficient = _ :=
    coefficient_meaning_printed hsign
  have hpower : ((t.printed style sign).meaning f).power = t.power :=
    VariablePart.power_ofPower t.power
  obtain ⟨_ | _ | ⟨negative, units, h⟩, power⟩ := t
  · cases hfinite
  · cases hfinite
  rw [magnitude_printed h power, NumberStyle.decimal, hprecision] at hcoefficient
  dsimp only at hcoefficient
  by_cases hone : power ≠ 0 ∧ (Binary.finite negative units h).abs.isOne
  · have hkept : ((printed style sign ⟨.finite negative units h, power⟩).meaning f).coefficient =
        .finite negative units h := by
      have habs : (Binary.finite negative units h).abs = 1 := Binary.isOne_iff.mp hone.2
      rw [hcoefficient, if_pos hone]
      exact (congrArg _ habs.symm).trans (Binary.sign_mul_abs _)
    refine ⟨hpower, by rw [hkept], fun _ ↦ hkept, fun hwritten ↦ absurd ?_ hwritten⟩
    exact unwritten_iff.mpr hone
  · have hread : ((printed style sign ⟨.finite negative units h, power⟩).meaning f).coefficient =
        (Decimal.fixed f places units).nearest f negative := by
      rw [hcoefficient, if_neg hone]
      exact Decimal.sign_mul_nearest negative _
    refine ⟨hpower, ?_, fun hunwritten ↦ absurd ?_ hone, fun _ ↦ ⟨_, ?_, hread, ?_⟩⟩
    · rw [hread]
      exact Binary.isNegative_round ..
    · exact unwritten_iff.mp hunwritten
    · have hrounded := roundsNearestEven_nearestQuotient (units * 10 ^ places)
        (Nat.two_pow_pos f.scale)
      push_cast at hrounded
      rw [Binary.abs_value_finite, div_mul_eq_mul_div]
      exact hrounded
    · rw [hread]
      exact Decimal.isNearest_fixed h places negative

/-- The unit of the format has as many places as its scale, so a number is written exactly with
that many. -/
theorem RoundedTo.eq_of_scale_le {s t : Term f} (h : RoundedTo places s t)
    (hfinite : s.coefficient.isFinite = true) (hplaces : f.scale ≤ places) : t = s := by
  obtain ⟨factor, hfactor⟩ : 2 ^ f.scale ∣ 10 ^ places :=
    (Nat.pow_dvd_pow 2 hplaces).trans (pow_dvd_pow_of_dvd (by decide) places)
  have hcoefficient : t.coefficient = s.coefficient := by
    by_cases hone : s.Unwritten
    · exact h.unwritten hone
    obtain ⟨significand, hrounds, -, hnearest⟩ := h.written hone
    obtain ⟨_ | _ | ⟨negative, units, hunits⟩, power⟩ := s
    · cases hfinite
    · cases hfinite
    have hten : (10 ^ places : ℚ) = 2 ^ f.scale * factor := mod_cast hfactor
    have hpositive : (0 : ℚ) < 2 ^ f.scale * factor := hten ▸ by positivity
    have hfactor : (factor : ℚ) ≠ 0 := right_ne_zero_of_mul hpositive.ne'
    obtain rfl : significand = units * factor := by
      apply RoundsNearestEven.eq_of_natCast
      rw [Binary.abs_value_finite, hten, ← mul_assoc, div_mul_cancel₀ _ (by positivity)] at hrounds
      push_cast
      exact hrounds
    have hexact : (Binary.signedUnits negative (units * factor) / 10 ^ places : ℚ) =
        (Binary.finite negative units hunits).value := by
      rw [Binary.signedUnits_mul_natCast, Binary.value_finite, hten]
      push_cast
      exact mul_div_mul_right _ _ hfactor
    apply Binary.eq_of_value_eq hnearest.finite rfl h.isNegative
    have hle := hnearest.nearest (.finite negative units hunits) rfl
    dsimp only [Binary.isNegative] at hle
    rw [hexact, sub_self, abs_zero, abs_nonpos_iff, sub_eq_zero] at hle
    exact hle.symm
  cases s
  cases t
  exact congrArg₂ Term.mk hcoefficient h.power

end Term

/-! ## Polynomials -/

/-- A polynomial that is printed with a precision is read back as one term for each term, with its
power and its sign and with a coefficient that only lost digits.  No power is read that the
polynomial does not have, and with at least as many places as the unit of the format has, nothing
is lost. -/
theorem parse_text_precision {p : Poly f} (hne : p ≠ 0)
    (hfinite : ∀ t ∈ p.terms, t.coefficient.isFinite = true) (places : ℕ)
    (alternate padZeros : Bool) (alignment : Alignment) (width : ℕ) :
    ∃ terms : List (Term f),
      readTerms f (p.text { alternate, padZeros, alignment, width, precision := some places }) =
        .ok terms ∧
      List.Forall₂ (Term.RoundedTo places) p.terms terms ∧
      ∃ q, Poly.parse f
          (p.text { alternate, padZeros, alignment, width, precision := some places }) = .ok q ∧
        (∀ t ∈ q.terms, ∃ s ∈ p.terms, s.power = t.power) ∧
        (f.scale ≤ places → terms = p.terms ∧ q = p) := by
  let style : NumberStyle :=
    { alternate, padZeros, alignment, width, precision := some places }
  let terms := (printedPieces style p.terms).map (Piece.meaning f)
  have hterms : p.terms ≠ [] := fun hnil ↦ hne (Poly.ext hnil)
  have hread : readTerms f (p.text style) = .ok terms := by
    rw [readTerms_text_meaning rfl rfl (Poly.isFinite_of_mem_printedTerms hfinite),
      Poly.printedTerms_of_ne hterms]
  have hrounded : List.Forall₂ (Term.RoundedTo places) p.terms terms :=
    forall₂_meaning_printedPieces fun t ht sign hsign ↦
      Term.roundedTo_meaning_printed rfl (hfinite t ht) hsign
  have hparse : Poly.parse f (p.text style) = .ok (Poly.ofTerms terms) := by
    rw [Poly.parse, hread]
    rfl
  refine ⟨terms, hread, hrounded, Poly.ofTerms terms, hparse, ?_, ?_⟩
  · intro t ht
    have hpowers : p.terms.map Term.power = terms.map Term.power := by
      rw [← List.forall₂_eq_eq_eq, List.forall₂_map_left_iff, List.forall₂_map_right_iff]
      exact hrounded.imp fun s t hst ↦ hst.power.symm
    obtain ⟨r, hr, hpower⟩ := exists_mem_of_mem_canonicalize ht
    rw [← hpower, ← List.mem_map, hpowers]
    exact List.mem_map_of_mem hr
  · intro hplaces
    have hsame : List.Forall₂ (· = ·) p.terms terms :=
      forall₂_meaning_printedPieces fun t ht sign hsign ↦
        ((Term.roundedTo_meaning_printed rfl (hfinite t ht) hsign).eq_of_scale_le (hfinite t ht)
          hplaces).symm
    rw [List.forall₂_eq_eq_eq] at hsame
    exact ⟨hsame.symm, by rw [← hsame, Poly.ofTerms_terms]⟩

example : Format.double.scale = 1074 ∧ Format.single.scale = 149 := by decide

/-- Without places, `-x^2 + 0.5x - 0.25` is read back as `-x^2 + 0x - 0`: the coefficient one is not
written, the half goes to the even zero, and the last zero keeps its sign. -/
theorem parse_text_precision_halves :
    ∃ p q : Poly .double,
      p.terms = [⟨-1, 2⟩, ⟨Binary.ofBits .double 0x3fe0000000000000, 1⟩,
        ⟨Binary.ofBits .double 0xbfd0000000000000, 0⟩] ∧
      readTerms .double (p.text { precision := some 0 }) = .ok [⟨-1, 2⟩, ⟨0, 1⟩, ⟨-0, 0⟩] ∧
      Poly.parse .double (p.text { precision := some 0 }) = .ok q := by
  let p : Poly .double := ⟨[⟨-1, 2⟩, ⟨Binary.ofBits .double 0x3fe0000000000000, 1⟩,
    ⟨Binary.ofBits .double 0xbfd0000000000000, 0⟩], by decide +kernel, by decide +kernel⟩
  have hne : p ≠ 0 := fun hzero ↦ List.cons_ne_nil _ _ (congrArg Poly.terms hzero)
  have hfinite : ∀ t ∈ p.terms, t.coefficient.isFinite = true := by decide +kernel
  obtain ⟨-, -, -, q, hparse, -⟩ := parse_text_precision hne hfinite 0 false false .right 0
  exact ⟨p, q, rfl, by decide +kernel, hparse⟩

end FloatPolynomial
