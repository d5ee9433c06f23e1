import FloatPolynomial.Proofs.Binary.ZeroSums

/-!
# Differences and Negated Sums

The difference of two numbers is their exact difference, rounded once, and it is the sum with the
negated subtrahend.  Rounding treats both signs alike, so the negation of a sum is the sum of the
negations, unless the sum is zero: a sum that cancels is the positive zero on either side.
Differences from the positive zero do not see this exception.
-/

namespace FloatPolynomial

namespace Binary

variable {f : Format}

/-- The difference of two numbers.  A difference that is exactly zero is negative only if a
positive zero is taken from a negative one. -/
protected def sub : Binary f → Binary f → Binary f
  | nan, _ => nan
  | _, nan => nan
  | infinite a, infinite b => if a = b then nan else infinite a
  | infinite a, finite _ _ _ => infinite a
  | finite _ _ _, infinite b => infinite (!b)
  | finite a m _, finite b n _ =>
    let difference := signedUnits a m - signedUnits b n
    round f (if difference = 0 then a && !b else decide (difference < 0)) difference.natAbs 1

instance : Sub (Binary f) := ⟨Binary.sub⟩

theorem sub_finite (a b : Bool) (m n : Nat) (hm : f.Representable m) (hn : f.Representable n) :
    finite a m hm - finite b n hn =
      round f
        (if signedUnits a m - signedUnits b n = 0 then a && !b
          else decide (signedUnits a m - signedUnits b n < 0))
        (signedUnits a m - signedUnits b n).natAbs 1 := rfl

/-- A difference is the sum with the negated subtrahend. -/
theorem sub_eq_add_neg (x y : Binary f) : x - y = x + -y := by
  rcases x with _ | a | ⟨a, m, hm⟩ <;> rcases y with _ | b | ⟨b, n, hn⟩ <;> try rfl
  case infinite.infinite =>
    change (if a = b then nan else infinite a : Binary f) = if a = !b then infinite a else nan
    cases a <;> cases b <;> rfl
  case finite.finite =>
    rw [sub_finite, neg_finite, add_finite, signedUnits_not, Int.sub_eq_add_neg]

theorem sub_self_eq_ite (x : Binary f) : x - x = if x.isFinite then 0 else nan := by
  rcases x with _ | a | ⟨a, m, hm⟩
  · rfl
  · change (if a = a then nan else infinite a : Binary f) = nan
    exact if_pos rfl
  · rw [sub_finite, Int.sub_self, if_pos rfl, Bool.and_not_self, Int.natAbs_zero,
      round_zero _ Nat.one_pos]
    rfl

theorem neg_round (negative : Bool) (numerator denominator : Nat) :
    -round f negative numerator denominator = round f (!negative) numerator denominator := by
  unfold round ofUnits
  split <;> rfl

/-- A sum of finite numbers is zero only if it cancels. -/
theorem isZero_add_finite {a b : Bool} {m n : Nat} {hm : f.Representable m}
    {hn : f.Representable n} :
    (finite a m hm + finite b n hn).isZero = true ↔ signedUnits a m + signedUnits b n = 0 := by
  rw [add_finite]
  constructor
  · intro hzero
    refine Decidable.byContradiction fun hsum ↦ ?_
    rw [isZero_round_units _ (Int.natAbs_pos.mpr hsum)] at hzero
    cases hzero
  · intro hsum
    rw [hsum, Int.natAbs_zero, round_zero _ Nat.one_pos]
    rfl

theorem decide_neg_lt_zero {value : Int} (h : value ≠ 0) :
    decide (-value < 0) = !decide (value < 0) := by
  rw [← decide_not, decide_eq_decide]
  omega

/-- Negation passes through a sum that is not zero. -/
theorem neg_add_of_isZero_eq_false {x y : Binary f} (h : (x + y).isZero = false) :
    -(x + y) = -x + -y := by
  rcases x with _ | a | ⟨a, m, hm⟩ <;> rcases y with _ | b | ⟨b, n, hn⟩ <;> try rfl
  case infinite.infinite =>
    change -(if a = b then infinite a else nan : Binary f) = if (!a) = !b then infinite (!a) else nan
    cases a <;> cases b <;> rfl
  case finite.finite =>
    have hsum : signedUnits a m + signedUnits b n ≠ 0 := by
      intro hsum
      rw [isZero_add_finite.mpr hsum] at h
      cases h
    have hneg : signedUnits (!a) m + signedUnits (!b) n = -(signedUnits a m + signedUnits b n) := by
      rw [signedUnits_not, signedUnits_not, Int.neg_add]
    rw [neg_finite, neg_finite, add_finite, add_finite, neg_round, hneg, Int.natAbs_neg,
      if_neg hsum, if_neg (Int.neg_ne_zero.mpr hsum), decide_neg_lt_zero hsum]

theorem isZero_neg_add_neg (x y : Binary f) : (-x + -y).isZero = (x + y).isZero := by
  cases hsum : (x + y).isZero with
  | false => rw [← neg_add_of_isZero_eq_false hsum, isZero_neg, hsum]
  | true =>
    cases hneg : (-x + -y).isZero with
    | true => rfl
    | false =>
      have hback := neg_add_of_isZero_eq_false hneg
      rw [neg_neg, neg_neg] at hback
      rw [← hback, isZero_neg, hneg] at hsum
      cases hsum

theorem zero_sub_eq_ite (x : Binary f) : 0 - x = if x.isZero then 0 else -x := by
  rw [sub_eq_add_neg, zero_add_eq_ite, isZero_neg]

theorem zero_sub_of_isZero {x : Binary f} (h : x.isZero = true) : 0 - x = 0 := by
  rw [zero_sub_eq_ite, h, if_pos rfl]

theorem zero_sub_of_isZero_eq_false {x : Binary f} (h : x.isZero = false) : 0 - x = -x := by
  rw [zero_sub_eq_ite, h, if_neg Bool.false_ne_true]

/-- A zero that is added to another number does not show in a difference from zero. -/
theorem zero_sub_add_of_isZero {x y : Binary f} (hx : x.isZero = true) :
    0 - (x + y) = 0 - y := by
  cases hy : y.isZero with
  | true => rw [zero_sub_of_isZero (isZero_add hx hy), zero_sub_of_isZero hy]
  | false => rw [add_of_isZero_left hx hy]

/-- Taken from zero, a sum is the sum of what its addends are taken from zero. -/
theorem zero_sub_add (x y : Binary f) : 0 - (x + y) = (0 - x) + (0 - y) := by
  have hnormal (z : Binary f) : NoNegativeZero (0 - z) := by
    rw [sub_eq_add_neg]
    exact noNegativeZero_add noNegativeZero_zero _
  cases hx : x.isZero with
  | true =>
    rw [zero_sub_add_of_isZero hx, zero_sub_of_isZero hx, Binary.add_comm,
      add_of_isZero (hnormal y) isZero_zero]
  | false =>
    cases hy : y.isZero with
    | true =>
      rw [Binary.add_comm x, zero_sub_add_of_isZero hy, zero_sub_of_isZero hy,
        add_of_isZero (hnormal x) isZero_zero]
    | false =>
      rw [zero_sub_of_isZero_eq_false hx, zero_sub_of_isZero_eq_false hy]
      cases hsum : (x + y).isZero with
      | false => rw [zero_sub_of_isZero_eq_false hsum, neg_add_of_isZero_eq_false hsum]
      | true =>
        have hzero : (-x + -y).isZero = true := by rw [isZero_neg_add_neg, hsum]
        have hne : NoNegativeZero (-x + -y) := by
          apply noNegativeZero_add
          apply noNegativeZero_of_isZero
          rw [isZero_neg, hx]
        rw [zero_sub_of_isZero hsum, hne hzero]

/-- To subtract a number is to add what it is taken from zero, except from the negative zero. -/
theorem add_zero_sub {x : Binary f} (hx : NoNegativeZero x) (y : Binary f) :
    x + (0 - y) = x - y := by
  rw [sub_eq_add_neg x]
  cases hy : y.isZero with
  | false => rw [zero_sub_of_isZero_eq_false hy]
  | true =>
    have hneg : (-y).isZero = true := by rw [isZero_neg, hy]
    rw [zero_sub_of_isZero hy, add_of_isZero hx isZero_zero, add_of_isZero hx hneg]

end Binary

end FloatPolynomial
