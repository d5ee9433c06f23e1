import FloatPolynomial.Proofs.Decimal.Notation

/-!
# Positional Notation

The text of a decimal is a number, also with zeros in front, and it is read as the same quotient:
as many zeros as a positive exponent asks for are digits of it, and a negative exponent is the
number of characters after its point.
-/

namespace FloatPolynomial

theorem ofDigits_append_replicate_zero (cs : List Char) (count : Nat) :
    ofDigits (cs ++ List.replicate count '0') = ofDigits cs * 10 ^ count := by
  induction count with
  | zero => rw [List.replicate_zero, List.append_nil, Nat.pow_zero, Nat.mul_one]
  | succ count ih =>
    calc
      ofDigits (cs ++ List.replicate (count + 1) '0')
        = 10 * ofDigits (cs ++ List.replicate count '0') + digitValue '0' := by
          rw [List.replicate_succ', ← List.append_assoc, ofDigits_append_singleton]
      _ = 10 * (ofDigits cs * 10 ^ count) := by
          rw [ih]
          rfl
      _ = ofDigits cs * 10 ^ (count + 1) := by
          rw [Nat.pow_succ, Nat.mul_comm 10, Nat.mul_assoc]

/-- Only the digits of zero begin with a zero. -/
theorem head?_digits_ne_zero {n : Nat} (hpos : 0 < n) : (digits n).head? ≠ some '0' := by
  revert hpos
  refine digits_induction (motive := fun n cs ↦ 0 < n → cs.head? ≠ some '0') (fun n hlt hpos ↦ ?_)
    (fun n hle ih _ ↦ ?_) n
  · have hfirst : ∀ n < 10, 0 < n → [digitChar n].head? ≠ some '0' := by decide
    exact hfirst n hlt hpos
  · have hhead := ih (Nat.div_pos hle (by decide))
    obtain ⟨c, others, hdigits⟩ := List.exists_cons_of_ne_nil (digits_ne_nil (n / 10))
    rw [hdigits] at hhead ⊢
    exact hhead

theorem isDigit_of_mem_replicate_zero {count : Nat} {c : Char}
    (h : c ∈ List.replicate count '0') : c.isDigit = true := by
  rw [List.eq_of_mem_replicate h]
  rfl

namespace Decimal

/-- The digits of a decimal before its point are cut off where those after it begin. -/
theorem placeDigits_append (d : Decimal) :
    ∃ zeros, d.placeDigits.1 ++ d.placeDigits.2 =
      List.replicate zeros '0' ++ (digits d.significand ++ List.replicate d.exponent.toNat '0') := by
  rw [placeDigits]
  simp only [List.splitAt_eq, List.take_append_drop]
  exact ⟨_, rfl⟩

theorem isDigit_of_mem_placeDigits {d : Decimal} {c : Char}
    (h : c ∈ d.placeDigits.1 ++ d.placeDigits.2) : c.isDigit = true := by
  obtain ⟨zeros, happend⟩ := d.placeDigits_append
  rw [happend, List.mem_append, List.mem_append] at h
  rcases h with h | h | h
  · exact isDigit_of_mem_replicate_zero h
  · exact isDigit_of_mem_digits h
  · exact isDigit_of_mem_replicate_zero h

theorem ofDigits_placeDigits (d : Decimal) :
    ofDigits (d.placeDigits.1 ++ d.placeDigits.2) = d.significand * 10 ^ d.exponent.toNat := by
  obtain ⟨zeros, happend⟩ := d.placeDigits_append
  rw [happend, ofDigits_replicate_zero_append, ofDigits_append_replicate_zero, ofDigits_digits]

theorem length_placeDigits (d : Decimal) : d.placeDigits.2.length = (-d.exponent).toNat := by
  simp only [placeDigits, List.splitAt_eq, List.length_drop, List.length_append,
    List.length_replicate]
  omega

theorem placeDigits_ne_nil (d : Decimal) : d.placeDigits.1 ≠ [] := by
  rw [← List.length_pos_iff]
  simp only [placeDigits, List.splitAt_eq, List.length_take, List.length_append,
    List.length_replicate]
  omega

/-- The digits before the point begin with a zero only if there are no others; a decimal that is
zero has no exponent that would put zeros behind its digit. -/
theorem placeDigits_leading {d : Decimal} (hzero : d.significand = 0 → d.exponent ≤ 0)
    (h : d.placeDigits.1.head? = some '0') : d.placeDigits.1 = ['0'] := by
  obtain ⟨c, others, hdigits⟩ := List.exists_cons_of_ne_nil (digits_ne_nil d.significand)
  have hlength : (digits d.significand ++ List.replicate d.exponent.toNat '0').length =
      others.length + 1 + d.exponent.toNat := by
    rw [List.length_append, List.length_replicate, hdigits, List.length_cons]
  by_cases hpadded : others.length + d.exponent.toNat ≤ (-d.exponent).toNat
  · -- Only one digit stands before the point.
    have hsingle : d.placeDigits.1.length = 1 := by
      simp only [placeDigits, List.splitAt_eq, List.length_take, List.length_append,
        List.length_replicate] at hlength ⊢
      omega
    obtain ⟨only, honly⟩ := List.length_eq_one_iff.mp hsingle
    rw [honly] at h ⊢
    exact congrArg (fun c ↦ [c]) (Option.some.inj h)
  · -- The digits before the point begin as those of the significand do, which is not zero.
    have hfirst : d.placeDigits.1.head? = some c := by
      have hunpadded : (-d.exponent).toNat + 1 -
          (digits d.significand ++ List.replicate d.exponent.toNat '0').length = 0 := by omega
      simp only [placeDigits, List.splitAt_eq]
      rw [hunpadded, List.replicate_zero, List.nil_append, List.head?_take, if_neg (by omega),
        hdigits]
      rfl
    have hsignificand : d.significand = 0 := by
      refine Decidable.byContradiction fun hne ↦ head?_digits_ne_zero (Nat.pos_of_ne_zero hne) ?_
      rw [hdigits, List.head?_cons, ← hfirst, h]
    have hexponent := hzero hsignificand
    have hsingle : (digits d.significand).length = 1 := by
      rw [hsignificand, digits_eq, if_pos (by decide), List.length_singleton]
    rw [hdigits, List.length_cons] at hsingle
    omega

/-- The text of a decimal, with zeros in front, is a number of the same value. -/
theorem toText_spec (zeros : Nat) (d : Decimal) :
    IsNumber (List.replicate zeros '0' ++ d.toText) ∧
      ofNumber (List.replicate zeros '0' ++ d.toText) =
        ⟨d.significand * 10 ^ d.exponent.toNat, -((-d.exponent).toNat : Int)⟩ := by
  have htext : d.toText = if d.placeDigits.2.isEmpty then d.placeDigits.1
      else d.placeDigits.1 ++ '.' :: d.placeDigits.2 := rfl
  have hvalue := d.ofDigits_placeDigits
  have hlength := d.length_placeDigits
  have hdigits : ∀ c ∈ d.placeDigits.1 ++ d.placeDigits.2, c.isDigit = true :=
    fun c hc ↦ isDigit_of_mem_placeDigits hc
  have hwhole : ∀ c ∈ List.replicate zeros '0' ++ d.placeDigits.1, c.isDigit = true := by
    intro c hc
    rcases List.mem_append.mp hc with hc | hc
    · exact isDigit_of_mem_replicate_zero hc
    · exact hdigits c (List.mem_append_left _ hc)
  have hne : List.replicate zeros '0' ++ d.placeDigits.1 ≠ [] :=
    List.append_ne_nil_of_right_ne_nil _ d.placeDigits_ne_nil
  rw [htext]
  cases hfraction : d.placeDigits.2 with
  | nil =>
    rw [hfraction, List.append_nil] at hvalue
    rw [hfraction, List.length_nil] at hlength
    rw [List.isEmpty_nil, if_pos rfl, isNumber_digits_iff hwhole, ofNumber_digits hwhole,
      ofDigits_replicate_zero_append, hvalue, ← hlength]
    exact ⟨hne, rfl⟩
  | cons c rest =>
    rw [hfraction] at hvalue hlength hdigits
    have hrest : ∀ a ∈ c :: rest, a.isDigit = true :=
      fun a ha ↦ hdigits a (List.mem_append_right _ ha)
    rw [List.isEmpty_cons, if_neg Bool.false_ne_true, ← List.append_assoc,
      isNumber_point_iff hwhole, ofNumber_point hwhole hrest, List.append_assoc _ _ (c :: rest),
      ofDigits_replicate_zero_append, hvalue, hlength]
    exact ⟨⟨hrest, List.append_ne_nil_of_right_ne_nil _ (List.append_ne_nil_of_right_ne_nil _
      (List.cons_ne_nil _ _))⟩, rfl⟩

/-- Zeros that stand for a positive exponent do not change what a decimal is rounded to. -/
theorem nearest_placed {f : Format} (negative : Bool) (d : Decimal) :
    nearest f negative ⟨d.significand * 10 ^ d.exponent.toNat, -((-d.exponent).toNat : Int)⟩ =
      d.nearest f negative := by
  have hnone : (-((-d.exponent).toNat : Int)).toNat = 0 := by omega
  have hplaces : (- -((-d.exponent).toNat : Int)).toNat = (-d.exponent).toNat := by omega
  rw [nearest, nearest]
  dsimp only
  rw [hnone, hplaces, Nat.pow_zero, Nat.mul_one]

/-- Reading the text of a decimal rounds the decimal. -/
theorem nearest_ofNumber_toText {f : Format} (negative : Bool) (zeros : Nat) (d : Decimal) :
    (ofNumber (List.replicate zeros '0' ++ d.toText)).nearest f negative =
      d.nearest f negative := by
  rw [(toText_spec zeros d).2, nearest_placed]

end Decimal

end FloatPolynomial
