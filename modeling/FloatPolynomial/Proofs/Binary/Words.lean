import FloatPolynomial.Binary.Word
import FloatPolynomial.Proofs.Binary.Magnitudes

/-!
# Words and Numbers

Every number has a word that stands for it, `ofWord_toWord`: the exponent field of a magnitude is
its place, one higher where the leading digit is there, and a field with every bit set is left to
the infinite magnitude and to non-numbers.

Conversely a word is determined by its number, `toWord_ofWord`, unless this is not a number.  The
words of a non-number differ in the sign bit and the payload; `WordAddition.keepPayload` is one way
to choose among them.
-/

namespace FloatPolynomial

namespace Format

variable (f : Format) {units : Nat}

theorem two_pow_precision : 2 ^ f.precision = 2 * 2 ^ (f.precision - 1) := by
  have hprecision := f.one_lt_precision
  rw [← Nat.pow_succ', Nat.succ_eq_add_one, Nat.sub_add_cancel (Nat.le_of_lt hprecision)]

/-- Above the infinite magnitude there is room for the payloads of non-numbers. -/
theorem signWeight_eq : f.signWeight = f.infinityBits + 2 ^ (f.precision - 1) := by
  have hprecision := f.one_lt_precision
  have hfields : f.exponentBits + f.precision - 1 = f.exponentBits + (f.precision - 1) := by omega
  rw [signWeight, hfields, Nat.pow_add, infinityBits, ← Nat.succ_mul, Nat.succ_eq_add_one,
    Nat.sub_add_cancel (Nat.two_pow_pos _)]

theorem div_two_pow_place_lt (units : Nat) :
    units / 2 ^ f.place units < 2 * 2 ^ (f.precision - 1) := by
  rw [Nat.div_lt_iff_lt_mul (Nat.two_pow_pos _), ← f.two_pow_precision]
  exact f.lt_two_pow_place units

/-- A magnitude without a leading digit stands at the least place. -/
theorem place_eq_zero_of_lt (h : units / 2 ^ f.place units < 2 ^ (f.precision - 1)) :
    f.place units = 0 := by
  rw [Nat.div_lt_iff_lt_mul (Nat.two_pow_pos _)] at h
  rcases Nat.eq_zero_or_pos (f.place units) with hzero | hpos
  · exact hzero
  · exact absurd (f.two_pow_mul_le_of_place_pos hpos) (Nat.not_le.mpr h)

theorem place_le_maxPlace (h : f.Representable units) : f.place units ≤ f.maxPlace := by
  have hprecision := f.one_lt_precision
  rcases Nat.eq_zero_or_pos units with rfl | hpos
  · rw [f.place_zero]
    exact Nat.zero_le _
  · have hlog : units.log2 < f.precision + f.maxPlace :=
      (Nat.log2_lt (Nat.ne_of_gt hpos)).mpr h.2
    unfold place
    omega

theorem magnitudeBits_lt (h : f.Representable units) : f.magnitudeBits units < f.infinityBits := by
  have hfield : f.maxPlace + 2 = 2 ^ f.exponentBits - 1 := by
    have hscale := f.scale_lt_maxPlace
    unfold maxPlace at hscale ⊢
    omega
  calc
    f.magnitudeBits units
      < f.place units * 2 ^ (f.precision - 1) + 2 * 2 ^ (f.precision - 1) :=
        Nat.add_lt_add_left (f.div_two_pow_place_lt units) _
    _ = (f.place units + 2) * 2 ^ (f.precision - 1) := (Nat.add_mul ..).symm
    _ ≤ (f.maxPlace + 2) * 2 ^ (f.precision - 1) :=
        Nat.mul_le_mul_right _ (Nat.add_le_add_right (f.place_le_maxPlace h) 2)
    _ = f.infinityBits := by rw [hfield, infinityBits]

theorem place_eq_zero (h : units < 2 ^ f.precision) : f.place units = 0 := by
  rcases Nat.eq_zero_or_pos units with rfl | hpos
  · exact f.place_zero
  · have hlog : units.log2 < f.precision := (Nat.log2_lt (Nat.ne_of_gt hpos)).mpr h
    unfold place
    omega

/-- Digits without a leading one are their own pattern. -/
theorem magnitudeBits_of_lt (h : units < 2 ^ (f.precision - 1)) :
    f.Representable units ∧ f.magnitudeBits units = units := by
  have hlt : units < 2 ^ f.precision := by
    rw [f.two_pow_precision]
    omega
  have hplace := f.place_eq_zero hlt
  constructor
  · refine ⟨hplace ▸ Nat.one_dvd units, Nat.lt_of_lt_of_le hlt ?_⟩
    exact Nat.pow_le_pow_right (by decide) (Nat.le_add_right ..)
  · rw [magnitudeBits, hplace, Nat.zero_mul, Nat.zero_add, Nat.pow_zero, Nat.div_one]

/-- The last digits behind an exponent field have a leading one in front of them. -/
theorem unitsOfBits_field {last : Nat} (hlast : last < 2 ^ (f.precision - 1)) (exponent : Nat) :
    f.unitsOfBits (2 ^ (f.precision - 1) * (exponent + 1) + last) =
      (last + 2 ^ (f.precision - 1)) * 2 ^ exponent := by
  have hfield : (2 ^ (f.precision - 1) * (exponent + 1) + last) / 2 ^ (f.precision - 1) =
      exponent + 1 := by
    rw [Nat.mul_add_div (Nat.two_pow_pos _), Nat.div_eq_of_lt hlast, Nat.add_zero]
  rw [unitsOfBits, hfield, Nat.mul_add_mod, Nat.mod_eq_of_lt hlast]
  exact if_neg (Nat.succ_ne_zero _)

theorem unitsOfBits_magnitudeBits (h : f.Representable units) :
    f.unitsOfBits (f.magnitudeBits units) = units := by
  have hdigits := f.div_two_pow_place_lt units
  rcases Nat.lt_or_ge (units / 2 ^ f.place units) (2 ^ (f.precision - 1)) with hlt | hge
  · have hplace : f.place units = 0 := f.place_eq_zero_of_lt hlt
    rw [hplace, Nat.pow_zero, Nat.div_one] at hlt
    rw [(f.magnitudeBits_of_lt hlt).2, unitsOfBits, if_pos (Nat.div_eq_of_lt hlt)]
  · -- The leading digit is carried into the exponent field.
    obtain ⟨last, hsplit⟩ := Nat.exists_eq_add_of_le hge
    have hlast : last < 2 ^ (f.precision - 1) := by omega
    have hbits : f.magnitudeBits units = 2 ^ (f.precision - 1) * (f.place units + 1) + last := by
      rw [magnitudeBits, hsplit, Nat.mul_add_one, Nat.mul_comm]
      omega
    calc
      f.unitsOfBits (f.magnitudeBits units)
        = (last + 2 ^ (f.precision - 1)) * 2 ^ f.place units := by
          rw [hbits, f.unitsOfBits_field hlast]
      _ = units / 2 ^ f.place units * 2 ^ f.place units := by rw [hsplit, Nat.add_comm]
      _ = units := Nat.div_mul_cancel h.1

/-- Digits with a leading one are counted from their own place on. -/
theorem place_mul_two_pow {digits : Nat} (hle : 2 ^ (f.precision - 1) ≤ digits)
    (hlt : digits < 2 ^ f.precision) (exponent : Nat) :
    f.place (digits * 2 ^ exponent) = exponent := by
  have hprecision := f.one_lt_precision
  have hlog : (digits * 2 ^ exponent).log2 = f.precision - 1 + exponent := by
    apply (Nat.log2_eq_iff _).mpr
    · constructor
      · rw [Nat.pow_add]
        exact Nat.mul_le_mul_right _ hle
      · rw [Nat.add_right_comm, Nat.sub_add_cancel (Nat.le_of_lt hprecision), Nat.pow_add]
        exact Nat.mul_lt_mul_of_pos_right hlt (Nat.two_pow_pos _)
    · exact Nat.mul_ne_zero (Nat.ne_of_gt (Nat.lt_of_lt_of_le (Nat.two_pow_pos _) hle))
        (Nat.ne_of_gt (Nat.two_pow_pos _))
  rw [place, hlog]
  omega

/-- The pattern of digits with a leading one: the exponent field counts their place from one on. -/
theorem magnitudeBits_mul_two_pow {last exponent : Nat} (hlast : last < 2 ^ (f.precision - 1))
    (hmax : exponent ≤ f.maxPlace) :
    f.Representable ((last + 2 ^ (f.precision - 1)) * 2 ^ exponent) ∧
      f.magnitudeBits ((last + 2 ^ (f.precision - 1)) * 2 ^ exponent) =
        2 ^ (f.precision - 1) * (exponent + 1) + last := by
  have hlt : last + 2 ^ (f.precision - 1) < 2 ^ f.precision := by
    rw [f.two_pow_precision]
    omega
  have hplace := f.place_mul_two_pow (Nat.le_add_left (2 ^ (f.precision - 1)) last) hlt exponent
  refine ⟨⟨?_, ?_⟩, ?_⟩
  · rw [hplace]
    exact Nat.dvd_mul_left ..
  · rw [bound, Nat.pow_add]
    exact Nat.mul_lt_mul_of_lt_of_le hlt (Nat.pow_le_pow_right (by decide) hmax)
      (Nat.two_pow_pos _)
  · rw [magnitudeBits, hplace, Nat.mul_div_cancel _ (Nat.two_pow_pos _), Nat.mul_add_one,
      Nat.mul_comm]
    omega

/-- A pattern below the infinite one is the pattern of the magnitude that it stands for. -/
theorem magnitudeBits_unitsOfBits {bits : Nat} (h : bits < f.infinityBits) :
    f.Representable (f.unitsOfBits bits) ∧ f.magnitudeBits (f.unitsOfBits bits) = bits := by
  have hleading : 0 < 2 ^ (f.precision - 1) := Nat.two_pow_pos _
  rcases Nat.eq_zero_or_pos (bits / 2 ^ (f.precision - 1)) with hfield | hfield
  · have hunits : f.unitsOfBits bits = bits := if_pos hfield
    rw [hunits]
    exact f.magnitudeBits_of_lt (Nat.lt_of_div_eq_zero hleading hfield)
  · obtain ⟨exponent, hexponent⟩ := Nat.exists_eq_add_of_lt hfield
    rw [Nat.zero_add] at hexponent
    have hlast := Nat.mod_lt bits hleading
    have hdivision : 2 ^ (f.precision - 1) * (exponent + 1) + bits % 2 ^ (f.precision - 1) =
        bits := by
      rw [← hexponent, Nat.div_add_mod]
    have hunits : f.unitsOfBits bits =
        (bits % 2 ^ (f.precision - 1) + 2 ^ (f.precision - 1)) * 2 ^ exponent := by
      rw [← f.unitsOfBits_field hlast, hdivision]
    have hmax : exponent ≤ f.maxPlace := by
      have hbelow : bits / 2 ^ (f.precision - 1) < 2 ^ f.exponentBits - 1 :=
        (Nat.div_lt_iff_lt_mul hleading).mpr h
      unfold maxPlace
      omega
    obtain ⟨hrepresentable, hbits⟩ := f.magnitudeBits_mul_two_pow hlast hmax
    rw [hunits]
    exact ⟨hrepresentable, hbits.trans hdivision⟩

theorem two_pow_width : 2 ^ f.width = 2 * f.signWeight := by
  have hprecision := f.one_lt_precision
  have hfields : f.width = f.exponentBits + f.precision - 1 + 1 := by
    unfold width
    omega
  rw [hfields, Nat.pow_succ', signWeight]

end Format

namespace Binary

variable {f : Format}

theorem ofBits_signed (negative : Bool) {magnitude : Nat} (h : magnitude < f.signWeight) :
    ofBits f (negative.toNat * f.signWeight + magnitude) =
      if magnitude < f.infinityBits then ofUnits f negative (f.unitsOfBits magnitude)
      else if magnitude = f.infinityBits then infinite negative
      else nan := by
  have hsign :
      ((negative.toNat * f.signWeight + magnitude) / f.signWeight % 2 == 1) = negative := by
    rw [Nat.add_comm, Nat.add_mul_div_right _ _ (Nat.zero_lt_of_lt h), Nat.div_eq_of_lt h,
      Nat.zero_add]
    cases negative <;> rfl
  have hmagnitude : (negative.toNat * f.signWeight + magnitude) % f.signWeight = magnitude := by
    rw [Nat.mul_comm, Nat.mul_add_mod, Nat.mod_eq_of_lt h]
  rw [ofBits, hsign, hmagnitude]

/-- A pattern is a sign and a magnitude; that of a non-number is greater than the infinite one. -/
theorem exists_toBits_eq (x : Binary f) :
    ∃ negative magnitude, x.toBits = negative.toNat * f.signWeight + magnitude ∧
      magnitude < f.signWeight ∧
      x = if magnitude < f.infinityBits then ofUnits f negative (f.unitsOfBits magnitude)
        else if magnitude = f.infinityBits then infinite negative
        else nan := by
  have hprecision := f.one_lt_precision
  have hleading : 0 < 2 ^ (f.precision - 1) := Nat.two_pow_pos _
  have hweight := f.signWeight_eq
  cases x with
  | nan =>
    have hpayload : 0 < 2 ^ (f.precision - 2) := Nat.two_pow_pos _
    have hlt : 2 ^ (f.precision - 2) < 2 ^ (f.precision - 1) :=
      Nat.pow_lt_pow_right (by decide) (by omega)
    refine ⟨false, f.infinityBits + 2 ^ (f.precision - 2), ?_, by omega, ?_⟩
    · rw [toBits, Bool.toNat_false, Nat.zero_mul, Nat.zero_add]
    · rw [if_neg (by omega), if_neg (by omega)]
  | infinite negative =>
    refine ⟨negative, f.infinityBits, rfl, by omega, ?_⟩
    rw [if_neg (Nat.lt_irrefl _), if_pos rfl]
  | finite negative units h =>
    have hlt := f.magnitudeBits_lt h
    refine ⟨negative, f.magnitudeBits units, rfl, by omega, ?_⟩
    rw [if_pos hlt, f.unitsOfBits_magnitudeBits h, ofUnits, dif_pos h]

theorem ofBits_toBits (x : Binary f) : ofBits f x.toBits = x := by
  obtain ⟨negative, magnitude, hbits, hlt, hx⟩ := x.exists_toBits_eq
  rw [hbits, ofBits_signed negative hlt, ← hx]

theorem toBits_lt (x : Binary f) : x.toBits < 2 ^ f.width := by
  obtain ⟨negative, magnitude, hbits, hlt, -⟩ := x.exists_toBits_eq
  have hsign : negative.toNat * f.signWeight ≤ f.signWeight := by
    cases negative <;> simp
  rw [hbits, f.two_pow_width]
  omega

/-- A number is read back from its word. -/
@[simp]
theorem ofWord_toWord (x : Binary f) : ofWord x.toWord = x := by
  rw [ofWord, toWord, BitVec.toNat_ofNat, Nat.mod_eq_of_lt x.toBits_lt, ofBits_toBits]

theorem toBits_ofBits {bits : Nat} (hlt : bits < 2 ^ f.width) (h : ofBits f bits ≠ nan) :
    (ofBits f bits).toBits = bits := by
  obtain ⟨negative, hnegative⟩ : ∃ negative : Bool, negative.toNat = bits / f.signWeight := by
    have hsign : bits / f.signWeight < 2 := by
      rw [f.two_pow_width] at hlt
      exact (Nat.div_lt_iff_lt_mul (Nat.two_pow_pos _)).mpr hlt
    rcases Nat.eq_zero_or_pos (bits / f.signWeight) with hzero | hpos
    · exact ⟨false, hzero.symm⟩
    · exact ⟨true, by rw [Bool.toNat_true]; omega⟩
  have hmagnitude : bits % f.signWeight < f.signWeight := Nat.mod_lt _ (Nat.two_pow_pos _)
  have hbits : negative.toNat * f.signWeight + bits % f.signWeight = bits := by
    rw [hnegative, Nat.mul_comm, Nat.div_add_mod]
  have hvalue := ofBits_signed negative hmagnitude
  rw [hbits] at hvalue
  rw [hvalue] at h ⊢
  split at h
  · rename_i hfinite
    obtain ⟨hrepresentable, hpattern⟩ := f.magnitudeBits_unitsOfBits hfinite
    rw [if_pos hfinite, ofUnits, dif_pos hrepresentable, toBits, hpattern, hbits]
  · rename_i hfinite
    split at h
    · rename_i hinfinite
      rw [if_neg hfinite, if_pos hinfinite, toBits, ← hinfinite, hbits]
    · exact absurd rfl h

/-- A word is determined by its number, if it stands for one. -/
theorem toWord_ofWord {w : Word f} (h : ofWord w ≠ nan) : (ofWord w).toWord = w := by
  have hbits : (ofWord w).toBits = w.bits.toNat := toBits_ofBits w.bits.isLt h
  rw [toWord, hbits, BitVec.ofNat_toNat, BitVec.setWidth_eq]

/-- Words that differ in the payload stand for the same non-number. -/
example :
    ofWord (f := .single) ⟨0x7fc00000#32⟩ = nan ∧ ofWord (f := .single) ⟨0x7fc00001#32⟩ = nan := by
  decide

end Binary

namespace WordAddition

variable {f : Format}

/-- The addition that passes on the payload of its first addend that is not a number. -/
@[reducible]
def keepPayload (f : Format) : WordAddition f where
  add v w :=
    if Binary.ofWord v = .nan then v
    else if Binary.ofWord w = .nan then w
    else (Binary.ofWord v + Binary.ofWord w).toWord
  ofWord_add v w := by
    change Binary.ofWord (if Binary.ofWord v = .nan then v
      else if Binary.ofWord w = .nan then w
      else (Binary.ofWord v + Binary.ofWord w).toWord) = Binary.ofWord v + Binary.ofWord w
    split
    · rename_i hv
      rw [hv]
      rfl
    · split
      · rename_i hw
        rw [hw]
        cases Binary.ofWord v <;> rfl
      · exact Binary.ofWord_toWord _

instance : Inhabited (WordAddition f) := ⟨keepPayload f⟩

end WordAddition

end FloatPolynomial
