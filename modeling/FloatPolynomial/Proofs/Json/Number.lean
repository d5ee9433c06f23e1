import FloatPolynomial.Json.TermList
import FloatPolynomial.Proofs.Decimal.PositionalText
import FloatPolynomial.Proofs.Decimal.Shortest
import FloatPolynomial.Proofs.Results

/-!
# Written Numbers Are Read

A number whose digits stand where JSON wants them is scanned as itself from every text that is
written for it, whatever follows, as long as it does not continue the number.  Decimals are written
as such numbers, in positional notation or with an exponent, and keep their value though a zero is
written after the point where they have no fraction.
-/

namespace FloatPolynomial

namespace JsonNumber

/-- Only digits, at least one of them before the point, and none of these in front of others is a
zero. -/
structure WellFormed (n : JsonNumber) : Prop where
  digits : ∀ c ∈ n.whole ++ n.fraction, c.isDigit = true
  whole_ne_nil : n.whole ≠ []
  leading : n.whole.head? = some '0' → n.whole = ['0']

/-- The characters that can continue a number. -/
def continues (c : Char) : Bool :=
  c.isDigit || c == '.' || c == 'e' || c == 'E'

section Parts

variable {rest : List Char}

theorem isDigit_eq_false_of_continues {c : Char} (h : continues c = false) :
    c.isDigit = false := by
  simp only [continues, Bool.or_eq_false_iff] at h
  exact h.1.1.1

theorem ne_point_of_continues {c : Char} (h : continues c = false) : c ≠ '.' := by
  rintro rfl
  cases h

theorem ne_mark_of_continues {c : Char} (h : continues c = false) : ¬(c = 'e' ∨ c = 'E') := by
  rintro (rfl | rfl) <;> cases h

theorem scanDigits_append {run : List Char} (hrun : ∀ c ∈ run, c.isDigit = true) (hne : run ≠ [])
    (hstop : ∀ c ∈ rest.head?, c.isDigit = false) :
    scanDigits (run ++ rest) = some (run, rest) := by
  rw [scanDigits, takeWhile_append_stop hrun hstop, dropWhile_append_stop hrun hstop,
    List.isEmpty_eq_false_iff.mpr hne, if_neg Bool.false_ne_true]

theorem scanWhole_append {whole : List Char} (hdigits : ∀ c ∈ whole, c.isDigit = true)
    (hne : whole ≠ []) (hleading : whole.head? = some '0' → whole = ['0'])
    (hstop : ∀ c ∈ rest.head?, c.isDigit = false) :
    scanWhole (whole ++ rest) = some (whole, rest) := by
  by_cases hzero : whole.head? = some '0'
  · rw [hleading hzero]
    rfl
  · have hscan : scanWhole (whole ++ rest) = scanDigits (whole ++ rest) := by
      unfold scanWhole
      split
      · rename_i more heq
        obtain ⟨c, others, rfl⟩ := List.exists_cons_of_ne_nil hne
        obtain ⟨rfl, -⟩ := List.cons.inj heq
        exact absurd rfl hzero
      · rfl
    rw [hscan, scanDigits_append hdigits hne hstop]

/-- A fraction with its point, if there is one. -/
def fractionText (fraction : List Char) : List Char :=
  if fraction.isEmpty then [] else '.' :: fraction

theorem scanFraction_append {fraction : List Char} (hdigits : ∀ c ∈ fraction, c.isDigit = true)
    (hstop : ∀ c ∈ rest.head?, c.isDigit = false) (hpoint : ∀ c ∈ rest.head?, c ≠ '.') :
    scanFraction (fractionText fraction ++ rest) = some (fraction, rest) := by
  cases fraction with
  | nil =>
    change scanFraction rest = some ([], rest)
    unfold scanFraction
    split
    · exact absurd rfl (hpoint '.' rfl)
    · rfl
  | cons c others => exact scanDigits_append hdigits (List.cons_ne_nil c others) hstop

/-- The ways to write the sign of an exponent: a plus sign may be left out. -/
def exponentSigns (negative : Bool) : List (List Char) :=
  if negative then [['-']] else [[], ['+']]

theorem scanExponentSign_append {negative : Bool} {sign run : List Char}
    (hsign : sign ∈ exponentSigns negative) (hrun : ∀ c ∈ run.head?, c.isDigit = true) :
    scanExponentSign (sign ++ run) = (negative, run) := by
  cases negative with
  | true =>
    rw [List.mem_singleton.mp hsign]
    rfl
  | false =>
    rcases List.mem_cons.mp hsign with rfl | hplus
    · change scanExponentSign run = (false, run)
      unfold scanExponentSign
      split
      · exact absurd (hrun '+' rfl) (by decide)
      · exact absurd (hrun '-' rfl) (by decide)
      · rfl
    · rw [List.mem_singleton.mp hplus]
      rfl

/-- The ways to write an exponent: not at all, or as a mark, a sign, and a run of digits that may
begin with zeros. -/
inductive ExponentWritten : Option Int → List Char → Prop
  | absent : ExponentWritten none []
  | present {mark : Char} {negative : Bool} {sign run : List Char}
      (mark_eq : mark = 'e' ∨ mark = 'E') (sign_mem : sign ∈ exponentSigns negative)
      (digits : ∀ c ∈ run, c.isDigit = true) (run_ne_nil : run ≠ []) :
      ExponentWritten (some (if negative then -ofDigits run else ofDigits run))
        (mark :: (sign ++ run))

theorem scanExponent_append {exponent : Option Int} {text : List Char}
    (h : ExponentWritten exponent text) (hstop : ∀ c ∈ rest.head?, continues c = false) :
    scanExponent (text ++ rest) = some (exponent, rest) := by
  cases h with
  | absent =>
    rw [List.nil_append]
    cases rest with
    | nil => rfl
    | cons c more => exact if_neg (ne_mark_of_continues (hstop c rfl))
  | @present mark negative sign run hmark hsign hrun hne =>
    have hfirst : ∀ c ∈ (run ++ rest).head?, c.isDigit = true := by
      obtain ⟨d, others, rfl⟩ := List.exists_cons_of_ne_nil hne
      rintro c ⟨⟩
      exact hrun d List.mem_cons_self
    have hdigits : scanDigits (run ++ rest) = some (run, rest) :=
      scanDigits_append hrun hne fun c hc ↦ isDigit_eq_false_of_continues (hstop c hc)
    rw [List.cons_append, List.append_assoc, scanExponent, if_pos hmark,
      scanExponentSign_append hsign hfirst]
    simp only [hdigits, Option.bind_eq_bind, Option.bind_some, Option.pure_def]

/-- An exponent with its mark and sign, if there is one. -/
def exponentText : Option Int → List Char
  | none => []
  | some exponent => 'e' :: (if exponent < 0 then ['-'] else []) ++ digits exponent.natAbs

theorem exponentWritten_text (exponent : Option Int) :
    ExponentWritten exponent (exponentText exponent) := by
  cases exponent with
  | none => exact .absent
  | some exponent =>
    have hvalue : (if decide (exponent < 0) then -(ofDigits (digits exponent.natAbs) : Int)
        else ofDigits (digits exponent.natAbs)) = exponent := by
      simp only [ofDigits_digits, decide_eq_true_eq]
      omega
    have hsign : (if exponent < 0 then ['-'] else []) ∈ exponentSigns (decide (exponent < 0)) := by
      by_cases hnegative : exponent < 0 <;> simp [exponentSigns, hnegative]
    have hwritten := ExponentWritten.present (Or.inl rfl) hsign
      (fun c hc ↦ isDigit_of_mem_digits hc) (digits_ne_nil exponent.natAbs)
    rwa [hvalue] at hwritten

/-! What follows a part of a number is known from what is written after it. -/

theorem stop_fractionText_append (fraction : List Char)
    (hstop : ∀ c ∈ rest.head?, c.isDigit = false) :
    ∀ c ∈ (fractionText fraction ++ rest).head?, c.isDigit = false := by
  cases fraction with
  | nil => exact hstop
  | cons d others =>
    rintro c ⟨⟩
    rfl

theorem stop_exponent_append {exponent : Option Int} {text : List Char}
    (h : ExponentWritten exponent text) (hstop : ∀ c ∈ rest.head?, continues c = false) :
    ∀ c ∈ (text ++ rest).head?, c.isDigit = false ∧ c ≠ '.' := by
  cases h with
  | absent =>
    intro c hc
    exact ⟨isDigit_eq_false_of_continues (hstop c hc), ne_point_of_continues (hstop c hc)⟩
  | present hmark =>
    rintro c ⟨⟩
    rcases hmark with rfl | rfl <;> exact ⟨rfl, by decide⟩

end Parts

/-! ## Scanning numbers -/

/-- The ways to write a number, which differ in its exponent alone. -/
def WrittenAs (n : JsonNumber) (text : List Char) : Prop :=
  n.WellFormed ∧ ∃ exponent, ExponentWritten n.exponent exponent ∧
    text = (if n.negative then ['-'] else []) ++ (n.whole ++ (fractionText n.fraction ++ exponent))

theorem writtenAs_text {n : JsonNumber} (h : n.WellFormed) : n.WrittenAs n.text := by
  refine ⟨h, exponentText n.exponent, exponentWritten_text n.exponent, ?_⟩
  rw [text, fractionText, List.append_assoc, List.append_assoc]
  cases n.exponent <;> rfl

/-- A number begins with its minus sign or a digit. -/
theorem WrittenAs.exists_eq_cons {n : JsonNumber} {text : List Char} (h : n.WrittenAs text) :
    ∃ c tail, text = c :: tail ∧ if n.negative then c = '-' else c.isDigit = true := by
  obtain ⟨hn, exponent, -, rfl⟩ := h
  cases n.negative with
  | true => exact ⟨'-', _, rfl, rfl⟩
  | false =>
    obtain ⟨c, others, hwhole⟩ := List.exists_cons_of_ne_nil hn.whole_ne_nil
    rw [hwhole]
    exact ⟨c, _, rfl, hn.digits c (by simp [hwhole])⟩

theorem WrittenAs.head?_eq_minus {n : JsonNumber} {text : List Char} (h : n.WrittenAs text)
    (rest : List Char) : ((text ++ rest).head? == some '-') = n.negative := by
  obtain ⟨c, tail, rfl, hfirst⟩ := h.exists_eq_cons
  cases hnegative : n.negative with
  | true =>
    rw [hnegative, if_pos rfl] at hfirst
    rw [hfirst]
    rfl
  | false =>
    rw [hnegative, if_neg Bool.false_ne_true] at hfirst
    refine beq_eq_false_iff_ne.mpr fun hminus ↦ ?_
    obtain rfl : c = '-' := Option.some.inj hminus
    exact absurd hfirst (by decide)

/-- A number is scanned from each of its texts, also in front of more text. -/
theorem scan_append {n : JsonNumber} {text rest : List Char} (h : n.WrittenAs text)
    (hstop : ∀ c ∈ rest.head?, continues c = false) : scan (text ++ rest) = some (n, rest) := by
  have hminus := h.head?_eq_minus rest
  obtain ⟨hn, exponent, hexponent, rfl⟩ := h
  rw [scan, hminus]
  have hunsigned : (if n.negative then
      ((if n.negative then ['-'] else []) ++
        (n.whole ++ (fractionText n.fraction ++ exponent)) ++ rest).drop 1
      else (if n.negative then ['-'] else []) ++
        (n.whole ++ (fractionText n.fraction ++ exponent)) ++ rest) =
      n.whole ++ (fractionText n.fraction ++ (exponent ++ rest)) := by
    cases n.negative <;> simp
  have hafter := stop_exponent_append hexponent hstop
  have hwhole : scanWhole (n.whole ++ (fractionText n.fraction ++ (exponent ++ rest))) =
      some (n.whole, fractionText n.fraction ++ (exponent ++ rest)) :=
    scanWhole_append (fun c hc ↦ hn.digits c (List.mem_append_left _ hc)) hn.whole_ne_nil
      hn.leading (stop_fractionText_append n.fraction fun c hc ↦ (hafter c hc).1)
  have hfraction : scanFraction (fractionText n.fraction ++ (exponent ++ rest)) =
      some (n.fraction, exponent ++ rest) :=
    scanFraction_append (fun c hc ↦ hn.digits c (List.mem_append_right _ hc))
      (fun c hc ↦ (hafter c hc).1) fun c hc ↦ (hafter c hc).2
  simp only [hunsigned, hwhole, hfraction, scanExponent_append hexponent hstop,
    Option.bind_eq_bind, Option.bind_some, Option.pure_def]

theorem text_natural (value : Nat) :
    text { whole := digits value } = digits value := by
  rw [text]
  simp

theorem wellFormed_natural (value : Nat) : WellFormed { whole := digits value } where
  digits c hc := isDigit_of_mem_digits (List.append_nil (digits value) ▸ hc)
  whole_ne_nil := digits_ne_nil value
  leading := by
    intro hzero
    have hvalue : value = 0 :=
      Decidable.byContradiction fun hne ↦ head?_digits_ne_zero (Nat.pos_of_ne_zero hne) hzero
    rw [hvalue]
    exact digits_eq 0

theorem wellFormed_positional (negative : Bool) {d : Decimal}
    (hzero : d.significand = 0 → d.exponent ≤ 0) : (positional negative d).WellFormed where
  digits c hc := by
    rcases List.mem_append.mp hc with hc | hc
    · exact Decimal.isDigit_of_mem_placeDigits (List.mem_append_left _ hc)
    · simp only [positional] at hc
      split at hc
      · rw [List.mem_singleton.mp hc]
        rfl
      · exact Decimal.isDigit_of_mem_placeDigits (List.mem_append_right _ hc)
  whole_ne_nil := d.placeDigits_ne_nil
  leading := Decimal.placeDigits_leading hzero

/-- A single digit before the point may be any. -/
theorem wellFormed_of_whole_eq_singleton {n : JsonNumber} {c : Char} (hwhole : n.whole = [c])
    (hdigits : ((n.whole ++ n.fraction).all fun a ↦ a.isDigit) = true) : n.WellFormed where
  digits := List.all_eq_true.mp hdigits
  whole_ne_nil := by
    rw [hwhole]
    exact List.cons_ne_nil c []
  leading := by
    rw [hwhole]
    exact fun hzero ↦ congrArg ([·]) (Option.some.inj hzero)

theorem wellFormed_scientific (negative : Bool) (d : Decimal) :
    (scientific negative d).WellFormed := by
  obtain ⟨c, others, hrun⟩ := List.exists_cons_of_ne_nil (digits_ne_nil d.significand)
  have hwhole : (scientific negative d).whole = [c] := by
    rw [scientific, hrun]
    rfl
  refine wellFormed_of_whole_eq_singleton hwhole (List.all_eq_true.mpr fun a ha ↦ ?_)
  rw [scientific, List.take_append_drop] at ha
  exact isDigit_of_mem_digits ha

theorem wellFormed_ofDecimal (negative : Bool) {d : Decimal}
    (hzero : d.significand = 0 → d.exponent ≤ 0) : (ofDecimal negative d).WellFormed := by
  unfold ofDecimal
  dsimp only
  split
  · exact wellFormed_positional negative hzero
  · exact wellFormed_scientific negative d

theorem toBinary_positional (f : Format) (negative : Bool) (d : Decimal) :
    (positional negative d).toBinary f = d.nearest f negative := by
  have hvalue := d.ofDigits_placeDigits
  have hlength := d.length_placeDigits
  let fraction := if d.placeDigits.2.isEmpty then ['0'] else d.placeDigits.2
  have hwritten : (positional negative d).toBinary f =
      Decimal.nearest f negative
        ⟨ofDigits (d.placeDigits.1 ++ fraction), 0 - (fraction.length : Int)⟩ :=
    Decimal.toBinary_eq_nearest negative _
  rw [hwritten, ← Decimal.nearest_placed negative d, ← hvalue, ← hlength, Int.zero_sub]
  subst fraction
  cases d.placeDigits.2 with
  | nil =>
    have hzero : ofDigits (d.placeDigits.1 ++ ['0']) = ofDigits d.placeDigits.1 * 10 :=
      ofDigits_append_replicate_zero _ 1
    change Decimal.nearest f negative ⟨ofDigits (d.placeDigits.1 ++ ['0']), _⟩ = _
    rw [hzero, List.append_nil]
    exact Decimal.nearest_trailing_zero negative (ofDigits d.placeDigits.1) 0
  | cons c others => rfl

/-- The digits behind the point are counted by the exponent. -/
theorem magnitude_scientific (negative : Bool) (d : Decimal) :
    (scientific negative d).magnitude = d := by
  rw [magnitude, scientific, List.take_append_drop, ofDigits_digits, Option.getD_some,
    Int.add_sub_cancel]

/-- A decimal is rounded as the number that is written for it. -/
theorem toBinary_ofDecimal (f : Format) (negative : Bool) (d : Decimal) :
    (ofDecimal negative d).toBinary f = d.nearest f negative := by
  unfold ofDecimal
  dsimp only
  split
  · exact toBinary_positional f negative d
  · rw [toBinary, magnitude_scientific, Decimal.toBinary_eq_nearest]
    rfl

/-- The shortest decimal of a number reads back as the number, with either sign. -/
theorem toBinary_ofDecimal_shortest {f : Format} (negative : Bool) {units : Nat}
    (h : f.Representable units) (tie : Decimal.Tie) :
    (ofDecimal negative (Decimal.shortest f tie units)).toBinary f = .finite negative units h := by
  rw [toBinary_ofDecimal]
  exact Binary.round_eq_finite negative (Decimal.nearest_shortest h tie)

end JsonNumber

end FloatPolynomial
