import FloatPolynomial.Binary.Arithmetic
import FloatPolynomial.Proofs.Binary.Magnitudes

/-!
# Zeros in Sums

A zero of either sign is neutral in a sum, except that a sum of zeros may be a zero of another
sign.  A sum that starts from the positive zero is never the negative one, so there zeros can be
left out altogether, and it agrees with the sum that starts from the first addend wherever either
of them is not zero.  Nothing of this needs the sum to be exact: a sum of numbers that is not
exactly zero is not rounded to zero.
-/

namespace FloatPolynomial

/-- The sum of a list from left to right, beginning with its first item. -/
def leftSum {α : Type} [Add α] : List α → Option α
  | [] => none
  | first :: rest => some (rest.foldl (· + ·) first)

namespace Binary

variable {f : Format}

theorem eq_finite_of_isZero {x : Binary f} (h : x.isZero = true) :
    ∃ negative, x = finite negative 0 f.representable_zero := by
  cases x with
  | nan => cases h
  | infinite negative => cases h
  | finite negative units hunits =>
    obtain rfl := eq_of_beq h
    exact ⟨negative, rfl⟩

theorem isZero_eq_true_iff {x : Binary f} : x.isZero = true ↔ x = 0 ∨ x = -0 := by
  constructor
  · intro h
    obtain ⟨negative, hzero⟩ := eq_finite_of_isZero h
    cases negative with
    | false => exact .inl hzero
    | true => exact .inr hzero
  · rintro (rfl | rfl) <;> rfl

@[simp]
theorem signedUnits_zero (negative : Bool) : signedUnits negative 0 = 0 := by
  cases negative <;> rfl

@[simp]
theorem natAbs_signedUnits (negative : Bool) (units : Nat) :
    (signedUnits negative units).natAbs = units := by
  cases negative
  · exact Int.natAbs_natCast units
  · exact (Int.natAbs_neg _).trans (Int.natAbs_natCast units)

theorem signedUnits_not (negative : Bool) (units : Nat) :
    signedUnits (!negative) units = -signedUnits negative units := by
  cases negative <;> simp [signedUnits]

theorem decide_signedUnits_neg {negative : Bool} {units : Nat} (hpos : 0 < units) :
    decide (signedUnits negative units < 0) = negative := by
  cases negative with
  | false => exact decide_eq_false (Int.not_lt.mpr (Int.natCast_nonneg units))
  | true =>
    apply decide_eq_true
    change -(units : Int) < 0
    omega

theorem signedUnits_eq_zero {negative : Bool} {units : Nat} :
    signedUnits negative units = 0 ↔ units = 0 := by
  rw [← Int.natAbs_eq_zero, natAbs_signedUnits]

theorem add_finite_zero (a b : Bool) (m : Nat) (hm : f.Representable m) :
    finite a m hm + finite b 0 f.representable_zero =
      finite (if m = 0 then a && b else a) m hm := by
  rw [add_finite, signedUnits_zero, Int.add_zero, natAbs_signedUnits, round_units _ hm]
  congr 1
  by_cases hzero : m = 0
  · rw [if_pos (signedUnits_eq_zero.mpr hzero), if_pos hzero]
  · rw [if_neg (fun h ↦ hzero (signedUnits_eq_zero.mp h)), if_neg hzero,
      decide_signedUnits_neg (Nat.pos_of_ne_zero hzero)]

theorem isZero_add {x y : Binary f} (hx : x.isZero = true) (hy : y.isZero = true) :
    (x + y).isZero = true := by
  obtain ⟨a, rfl⟩ := eq_finite_of_isZero hx
  obtain ⟨b, rfl⟩ := eq_finite_of_isZero hy
  rw [add_finite_zero]
  rfl

/-- The number is not the negative zero. -/
def NoNegativeZero (x : Binary f) : Prop :=
  x.isZero = true → x = 0

theorem noNegativeZero_zero : NoNegativeZero (0 : Binary f) :=
  fun _ ↦ rfl

theorem noNegativeZero_of_isZero {x : Binary f} (h : x.isZero = false) : NoNegativeZero x := by
  intro htrue
  rw [h] at htrue
  cases htrue

theorem add_of_isZero {x y : Binary f} (hx : NoNegativeZero x) (hy : y.isZero = true) :
    x + y = x := by
  obtain ⟨b, rfl⟩ := eq_finite_of_isZero hy
  rcases x with _ | a | ⟨a, m, hm⟩
  · rfl
  · rfl
  · rw [add_finite_zero]
    split
    · rename_i hzero
      subst hzero
      obtain ⟨rfl, -⟩ := finite.inj (hx rfl)
      rfl
    · rfl

theorem add_of_isZero_left {x y : Binary f} (hx : x.isZero = true) (hy : y.isZero = false) :
    x + y = y := by
  rw [Binary.add_comm, add_of_isZero (noNegativeZero_of_isZero hy) hx]

/-- The positive zero on the left changes nothing but the sign of a zero. -/
theorem zero_add_eq_ite (x : Binary f) : 0 + x = if x.isZero then 0 else x := by
  split
  · exact add_of_isZero noNegativeZero_zero ‹_›
  · exact add_of_isZero_left isZero_zero (Bool.eq_false_iff.mpr ‹_›)

/-- A sum is the negative zero only if its first addend is. -/
theorem noNegativeZero_add {x : Binary f} (hx : NoNegativeZero x) (y : Binary f) :
    NoNegativeZero (x + y) := by
  rcases x with _ | a | ⟨a, m, hm⟩ <;> rcases y with _ | b | ⟨b, n, hn⟩
  case finite.finite =>
    rw [add_finite]
    by_cases hsum : signedUnits a m + signedUnits b n = 0
    · rw [hsum, if_pos rfl, Int.natAbs_zero, round_zero _ Nat.one_pos]
      intro _
      cases a with
      | false => rfl
      | true =>
        cases b with
        | false => rfl
        | true =>
          have hm0 : m = 0 := by
            change -(m : Int) + -(n : Int) = 0 at hsum
            omega
          subst hm0
          cases hx rfl
    · exact noNegativeZero_of_isZero (isZero_round_units _ (Int.natAbs_pos.mpr hsum))
  case infinite.infinite =>
    change NoNegativeZero (if a = b then infinite a else nan)
    split <;> exact noNegativeZero_of_isZero rfl
  all_goals exact noNegativeZero_of_isZero rfl

theorem noNegativeZero_foldl {start : Binary f} (h : NoNegativeZero start)
    (addends : List (Binary f)) : NoNegativeZero (addends.foldl (· + ·) start) := by
  induction addends generalizing start with
  | nil => exact h
  | cons x rest ih => exact ih (noNegativeZero_add h x)

/-- Zeros among the addends do not matter. -/
theorem foldl_add_filter {start : Binary f} (h : NoNegativeZero start)
    (addends : List (Binary f)) :
    (addends.filter fun x ↦ !x.isZero).foldl (· + ·) start = addends.foldl (· + ·) start := by
  induction addends generalizing start with
  | nil => rfl
  | cons x rest ih =>
    cases hx : x.isZero with
    | true =>
      rw [List.filter_cons_of_neg (by simp [hx]), List.foldl_cons, add_of_isZero h hx]
      exact ih h
    | false =>
      rw [List.filter_cons_of_pos (by simp [hx]), List.foldl_cons, List.foldl_cons]
      exact ih (noNegativeZero_add h x)

/-- Whichever zero a sum starts from, it reaches the same numbers other than zero. -/
theorem foldl_add_eq_iff_of_isZero {start sum : Binary f} (hstart : start.isZero = true)
    (hsum : sum.isZero = false) (addends : List (Binary f)) :
    addends.foldl (· + ·) start = sum ↔ addends.foldl (· + ·) 0 = sum := by
  induction addends generalizing start with
  | nil =>
    have hne {x : Binary f} (hx : x.isZero = true) : x ≠ sum := by
      intro heq
      rw [heq, hsum] at hx
      cases hx
    exact iff_of_false (hne hstart) (hne isZero_zero)
  | cons x rest ih =>
    rw [List.foldl_cons, List.foldl_cons]
    cases hx : x.isZero with
    | true => exact (ih (isZero_add hstart hx)).trans (ih (isZero_add isZero_zero hx)).symm
    | false => rw [add_of_isZero_left hstart hx, add_of_isZero_left isZero_zero hx]

theorem leftSum_eq_some_iff {addends : List (Binary f)} {sum : Binary f}
    (hsum : sum.isZero = false) :
    leftSum addends = some sum ↔ addends.foldl (· + ·) 0 = sum := by
  cases addends with
  | nil =>
    apply iff_of_false (Option.some_ne_none sum).symm
    intro h
    rw [← h, List.foldl_nil, isZero_zero] at hsum
    cases hsum
  | cons first rest =>
    rw [leftSum, Option.some_inj, List.foldl_cons]
    cases hfirst : first.isZero with
    | true =>
      rw [add_of_isZero noNegativeZero_zero hfirst]
      exact foldl_add_eq_iff_of_isZero hfirst hsum rest
    | false => rw [add_of_isZero_left isZero_zero hfirst]

/-- A sum from the positive zero on does not notice whether its addends are added up first. -/
theorem foldl_add_leftSum (addends : List (Binary f)) :
    (leftSum addends).toList.foldl (· + ·) 0 = addends.foldl (· + ·) 0 := by
  have hsum := noNegativeZero_foldl (noNegativeZero_zero (f := f)) addends
  cases hleft : leftSum addends with
  | none =>
    cases addends with
    | nil => rfl
    | cons first rest => cases hleft
  | some sum =>
    rw [Option.toList_some, List.foldl_cons, List.foldl_nil]
    cases hzero : sum.isZero with
    | false =>
      rw [add_of_isZero_left isZero_zero hzero]
      exact ((leftSum_eq_some_iff hzero).mp hleft).symm
    | true =>
      rw [add_of_isZero noNegativeZero_zero hzero]
      refine (hsum ?_).symm
      refine Decidable.byContradiction fun hnonzero ↦ ?_
      have hsame := (leftSum_eq_some_iff (Bool.eq_false_iff.mpr hnonzero)).mpr rfl
      rw [hleft, Option.some_inj] at hsame
      exact hnonzero (hsame ▸ hzero)

end Binary

end FloatPolynomial
