import Mathlib.Data.List.Forall2
import FloatPolynomial.Proofs.Binary.Words
import FloatPolynomial.Proofs.Decimal.Shortest
import FloatPolynomial.Proofs.Text.Printed

/-!
# Printing and Reading Back

A polynomial with finite coefficients that is printed without a precision is read back term by
term: the piece of a term is grammatical, its number rounds to the magnitude of the coefficient,
and its sign is that of the coefficient.  An infinity and a non-number are printed in letters, after
a sign where one is stored, and reading stops at the first of these letters.
-/

namespace FloatPolynomial

variable {f : Format}

theorem Binary.sign_mul_abs (x : Binary f) : (if x.isNegative then -1 else 1) * x.abs = x := by
  cases x with
  | nan => rfl
  | infinite negative =>
    cases negative
    · exact Binary.one_mul _
    · exact Binary.neg_one_mul _
  | finite negative units h =>
    cases negative
    · exact Binary.one_mul _
    · exact Binary.neg_one_mul _

namespace Term

variable {style : NumberStyle} {sign : Option Char}

theorem printedNumber_finite (style : NumberStyle) {negative : Bool} {units : Nat}
    (h : f.Representable units) {power : UInt32}
    (hone : ¬(power ≠ 0 ∧ (Binary.finite negative units h).abs.isOne)) :
    ∃ zeros, printedNumber style ⟨.finite negative units h, power⟩ =
      List.replicate zeros '0' ++ (style.decimal f units).toText := by
  rw [printedNumber, if_neg hone, NumberStyle.zeros, NumberStyle.body, NumberStyle.finiteText_eq]
  exact ⟨_, rfl⟩

theorem grammatical_printed (style : NumberStyle) {t : Term f}
    (hfinite : t.coefficient.isFinite = true) (hsign : t.Signs sign) :
    (t.printed style sign).Grammatical where
  sign := hsign.char
  number := by
    obtain ⟨_ | _ | ⟨negative, units, h⟩, power⟩ := t
    · cases hfinite
    · cases hfinite
    · by_cases hone : power ≠ 0 ∧ (Binary.finite negative units h).abs.isOne
      · exact Or.inl (if_pos hone)
      · obtain ⟨zeros, hnumber⟩ := printedNumber_finite style h hone
        rw [printed, hnumber]
        exact Or.inr (Decimal.toText_spec zeros _).1
  variablePart := VariablePart.grammatical_ofPower t.power
  rest := rfl

/-- The magnitude that is read: one where none is written, and otherwise the written decimal. -/
theorem magnitude_printed {negative : Bool} {units : Nat} (h : f.Representable units)
    (power : UInt32) :
    (printed style sign ⟨.finite negative units h, power⟩).magnitude f =
      if power ≠ 0 ∧ (Binary.finite negative units h).abs.isOne then 1
      else (style.decimal f units).nearest f false := by
  unfold Piece.magnitude printed
  dsimp only
  by_cases hone : power ≠ 0 ∧ (Binary.finite negative units h).abs.isOne
  · rw [if_pos hone, printedNumber, if_pos hone, if_pos rfl]
  · obtain ⟨zeros, hnumber⟩ := printedNumber_finite style h hone
    have hne : List.replicate zeros '0' ++ (style.decimal f units).toText ≠ [] := by
      obtain ⟨c, hc, -⟩ := (Decimal.toText_spec zeros (style.decimal f units)).1.digit
      exact List.ne_nil_of_mem hc
    rw [if_neg hone, hnumber, if_neg hne, Decimal.nearest_ofNumber_toText]

/-- The piece of a term means the term. -/
theorem meaning_printed {t : Term f} (hprecision : style.precision = none)
    (hfinite : t.coefficient.isFinite = true) (hsign : t.Signs sign) :
    (t.printed style sign).meaning f = t := by
  have hmagnitude : (t.printed style sign).magnitude f = t.coefficient.abs := by
    obtain ⟨_ | _ | ⟨negative, units, h⟩, power⟩ := t
    · cases hfinite
    · cases hfinite
    · rw [magnitude_printed h power]
      split
      · rename_i hone
        exact (Binary.isOne_iff.mp hone.2).symm
      · rw [NumberStyle.decimal, hprecision]
        exact Decimal.nearest_shortest h .up
  have hcoefficient : (if sign = some '-' then -1 else 1) * t.coefficient.abs = t.coefficient := by
    simp only [hsign.minus]
    exact Binary.sign_mul_abs t.coefficient
  calc
    (t.printed style sign).meaning f =
        ⟨(if sign = some '-' then -1 else 1) * t.coefficient.abs, t.power⟩ := by
      rw [Piece.meaning, hmagnitude]
      exact congrArg _ (VariablePart.power_ofPower t.power)
    _ = t := by rw [hcoefficient]

theorem body_of_not_finite (style : NumberStyle) {x : Binary f} (h : x.isFinite = false) :
    ∃ c more, (c = 'i' ∨ c = 'N') ∧ style.body x = c :: more := by
  cases x with
  | nan => exact ⟨'N', _, Or.inr rfl, rfl⟩
  | infinite negative => exact ⟨'i', _, Or.inl rfl, rfl⟩
  | finite negative units hunits => cases h

theorem isOne_abs_of_not_finite {x : Binary f} (h : x.isFinite = false) : x.abs.isOne = false := by
  cases x with
  | nan => rfl
  | infinite negative => rfl
  | finite negative units hunits => cases h

/-- What the text of an infinite term or a non-number is taken apart into: the word and everything
after it are left. -/
def refused (style : NumberStyle) (sign : Option Char) (t : Term f) : Piece where
  sign := sign
  number := style.zeros (style.body t.coefficient)
  variablePart := .absent
  rest := style.body t.coefficient ++ (VariablePart.ofPower t.power).text

theorem text_refused {t : Term f} (hfinite : t.coefficient.isFinite = false) :
    (t.refused style sign).text = (t.printed style sign).text := by
  have hone : ¬(t.power ≠ 0 ∧ t.coefficient.abs.isOne) := by
    rw [isOne_abs_of_not_finite hfinite]
    exact fun h ↦ Bool.false_ne_true h.2
  rw [text_printed, printedNumber, if_neg hone]
  simp only [refused, Piece.text, Piece.head, VariablePart.text, List.append_nil,
    List.append_assoc]

theorem scanned_refused {t : Term f} (hfinite : t.coefficient.isFinite = false)
    (hsign : ∀ c ∈ sign, c = '+' ∨ c = '-') : (t.refused style sign).Scanned where
  sign c hc := Piece.isSign_iff.mpr (hsign c hc)
  unsigned := by
    intro hnone c hc
    have hsigned : sign = none := hnone
    rw [text_refused hfinite, text_printed, hsigned] at hc
    exact (t.isPlain_unsigned style c (List.mem_of_mem_head? hc)).2
  number c hc := Piece.isNumeric_iff.mpr (Or.inl (isDigit_of_mem_replicate_zero hc))
  stop := by
    obtain ⟨c, more, hc, hbody⟩ := body_of_not_finite style hfinite
    intro a ha
    rw [refused, hbody] at ha
    obtain rfl : c = a := Option.some.inj ha
    rcases hc with rfl | rfl <;> rfl
  variablePart := by
    obtain ⟨c, more, hc, hbody⟩ := body_of_not_finite style hfinite
    intro hhead
    rw [refused, hbody] at hhead
    obtain rfl : c = 'x' := Option.some.inj hhead
    exact absurd hc (by decide)

/-- Reading the text of an infinite term or a non-number stops at a letter. -/
theorem read_printed_of_not_finite (style : NumberStyle) {t : Term f}
    (hfinite : t.coefficient.isFinite = false) (hsign : ∀ c ∈ sign, c = '+' ∨ c = '-')
    (start : Nat) :
    ∃ position c, (c = 'i' ∨ c = 'N') ∧
      (Piece.ofText (t.printed style sign).text).read f start =
        .error (.unexpectedChar position c) := by
  obtain ⟨c, more, hc, hbody⟩ := body_of_not_finite style hfinite
  have hzeros : ∀ a ∈ (t.refused style sign).number, a.isDigit = true :=
    fun a ha ↦ isDigit_of_mem_replicate_zero ha
  have hmagnitude : (t.refused style sign).readMagnitude f start =
      .ok ((t.refused style sign).magnitude f) := by
    apply Piece.readMagnitude_eq_ok_iff.mpr
    rw [Decimal.isNumber_digits_iff hzeros]
    exact ⟨Classical.em _, rfl⟩
  have hrest : (t.refused style sign).rest =
      c :: (more ++ (VariablePart.ofPower t.power).text) := by
    rw [refused, hbody, List.cons_append]
  refine ⟨start + byteLength (t.refused style sign).head, c, hc, ?_⟩
  rw [Piece.ofText_eq_iff.mpr ⟨text_refused hfinite, scanned_refused hfinite hsign⟩, Piece.read,
    hmagnitude, hrest]
  rfl

end Term

/-! ## Polynomials -/

section Polynomials

variable {α : Type} [Zero α] [Coefficient f α]

theorem Term.Signs.of_isFinite {t : Term f α} {sign : Option Char} (h : t.Signs sign)
    (hfinite : t.number.coefficient.isFinite = true) : t.number.Signs sign := by
  apply h.number
  intro hnan
  rw [hnan] at hfinite
  cases hfinite

theorem Poly.ofTerms_printedTerms (p : Poly f) : ofTerms p.printedTerms = p := by
  unfold printedTerms
  split
  · rename_i hzero
    apply Poly.ext
    rw [List.isEmpty_iff.mp hzero, terms_ofTerms,
      canonicalize_of_descending (List.pairwise_singleton _ _)]
    rfl
  · exact p.ofTerms_terms

theorem Poly.printedTerms_of_ne {p : Poly f α} (h : p.terms ≠ []) : p.printedTerms = p.terms :=
  if_neg (mt List.isEmpty_iff.mp h)

/-- What is printed of the numbers are the numbers of what is printed. -/
theorem Poly.printedTerms_number (p : Poly f α) :
    p.number.printedTerms = p.printedTerms.map Term.number := by
  unfold printedTerms isZero
  rw [terms_number]
  cases p.terms with
  | nil =>
    rw [List.map_nil, List.isEmpty_nil, if_pos rfl, List.isEmpty_nil, if_pos rfl,
      List.map_singleton, Term.number, Coefficient.number_zero]
  | cons t rest => rfl

theorem Poly.isFinite_of_mem_printedTerms {p : Poly f α}
    (h : ∀ t ∈ p.terms, t.number.coefficient.isFinite = true) :
    ∀ t ∈ p.printedTerms, t.number.coefficient.isFinite = true := by
  unfold printedTerms
  split
  · rw [List.forall_mem_singleton, Term.number, Coefficient.number_zero]
    rfl
  · exact h

theorem strip_text_ne_nil {style : NumberStyle} (hplus : style.plus = false)
    (hfill : style.fill = ' ') (p : Poly f α) : strip (p.text style) ≠ [] := by
  apply (cut_text hplus hfill p).text_ne_nil
  rw [Ne, List.map_eq_nil_iff]
  intro hpieces
  obtain ⟨t, ht⟩ := List.exists_mem_of_ne_nil _ p.printedTerms_ne_nil
  obtain ⟨sign, -, hmem⟩ := exists_mem_printedPieces style ht
  rw [hpieces] at hmem
  cases hmem

/-- What holds between each term and the meaning of its piece holds along the lists. -/
theorem forall₂_meaning_printedPieces {relation : Term f α → Term f → Prop} {style : NumberStyle}
    {terms : List (Term f α)} (h : ∀ t ∈ terms, ∀ sign, t.Signs sign →
      relation t ((t.number.printed style sign).meaning f)) :
    List.Forall₂ relation terms ((printedPieces style terms).map (Piece.meaning f)) := by
  cases terms with
  | nil => exact .nil
  | cons first others =>
    obtain ⟨hfirst, hothers⟩ := List.forall_mem_cons.mp h
    rw [printedPieces, List.map_cons, List.map_map]
    refine .cons (hfirst _ first.signs_leadingSign) ?_
    rw [List.forall₂_map_right_iff, List.forall₂_same]
    exact fun t ht ↦ hothers t ht _ t.signs_separator

theorem map_meaning_printedPieces {style : NumberStyle} (hprecision : style.precision = none)
    {terms : List (Term f α)} (hfinite : ∀ t ∈ terms, t.number.coefficient.isFinite = true) :
    (printedPieces style terms).map (Piece.meaning f) = terms.map Term.number := by
  have hsame : List.Forall₂ (· = ·) (terms.map Term.number)
      ((printedPieces style terms).map (Piece.meaning f)) := by
    rw [List.forall₂_map_left_iff]
    apply forall₂_meaning_printedPieces
    intro t ht sign hsign
    exact (Term.meaning_printed hprecision (hfinite t ht) (hsign.of_isFinite (hfinite t ht))).symm
  rw [List.forall₂_eq_eq_eq] at hsame
  exact hsame.symm

/-- Finite terms are read as what their pieces mean. -/
theorem readTerms_text_meaning {style : NumberStyle} (hplus : style.plus = false)
    (hfill : style.fill = ' ') {p : Poly f α}
    (hfinite : ∀ t ∈ p.printedTerms, t.number.coefficient.isFinite = true) :
    readTerms f (p.text style) =
      .ok ((printedPieces style p.printedTerms).map (Piece.meaning f)) := by
  apply readTerms_of_cut (strip_text_ne_nil hplus hfill p) (cut_text hplus hfill p)
  intro piece hpiece
  obtain ⟨t, ht, sign, hsign, rfl⟩ := mem_printedPieces hpiece
  exact Term.grammatical_printed style (hfinite t ht) (hsign.of_isFinite (hfinite t ht))

theorem readTerms_text {style : NumberStyle} (hplus : style.plus = false)
    (hfill : style.fill = ' ') (hprecision : style.precision = none) {p : Poly f α}
    (hfinite : ∀ t ∈ p.printedTerms, t.number.coefficient.isFinite = true) :
    readTerms f (p.text style) = .ok (p.printedTerms.map Term.number) := by
  rw [readTerms_text_meaning hplus hfill hfinite, map_meaning_printedPieces hprecision hfinite]

theorem readTerms_text_of_not_finite {style : NumberStyle} (hplus : style.plus = false)
    (hfill : style.fill = ' ') {p : Poly f α} {t : Term f α} (ht : t ∈ p.printedTerms)
    (hfinite : t.number.coefficient.isFinite = false) :
    ∃ position c, (c = 'i' ∨ c = 'N') ∧
      readTerms f (p.text style) = .error (.unexpectedChar position c) := by
  have hcut := (cut_text hplus hfill p).eq_pieces
  obtain ⟨sign, hsign, hmem⟩ := exists_mem_printedPieces style ht
  cases hread : readTerms f (p.text style) with
  | ok terms =>
    obtain ⟨-, hgrammatical, -⟩ := readTerms_eq_ok_iff.mp hread
    rw [← hcut] at hgrammatical
    have hpiece := hgrammatical _ (List.mem_map_of_mem (List.mem_map_of_mem hmem))
    obtain ⟨position, c, -, herror⟩ :=
      Term.read_printed_of_not_finite style hfinite hsign.char 0
    rw [(Piece.read_eq_ok_iff (Piece.scanned_ofText _)).mpr ⟨hpiece, rfl⟩] at herror
    cases herror
  | error e =>
    obtain ⟨part, hpart, start, herror⟩ :=
      exists_read_eq_error (strip_text_ne_nil hplus hfill p) hread
    rw [← hcut] at hpart
    obtain ⟨piece, hpiece, rfl⟩ := List.mem_map.mp hpart
    obtain ⟨s, -, own, hown, rfl⟩ := mem_printedPieces hpiece
    cases hs : s.number.coefficient.isFinite with
    | true =>
      have hgrammatical := Term.grammatical_printed style hs (hown.of_isFinite hs)
      rw [Piece.ofText_text hgrammatical.scanned,
        (Piece.read_eq_ok_iff hgrammatical.scanned).mpr ⟨hgrammatical, rfl⟩] at herror
      cases herror
    | false =>
      obtain ⟨position, c, hc, hfault⟩ :=
        Term.read_printed_of_not_finite style hs hown.char start
      rw [hfault] at herror
      exact ⟨position, c, hc, congrArg _ (Except.error.inj herror).symm⟩

end Polynomials

/-- The words of finite numbers are determined by the numbers. -/
theorem map_stored_map_number {terms : List (Term f (Word f))}
    (hfinite : ∀ t ∈ terms, (Binary.ofWord t.coefficient).isFinite = true) :
    (terms.map Term.number).map Term.stored = terms := by
  have hstored : ∀ t ∈ terms, t.number.stored = t := by
    intro t ht
    have hnumber : Binary.ofWord t.coefficient ≠ .nan := by
      intro hnan
      have hisFinite := hfinite t ht
      rw [hnan] at hisFinite
      cases hisFinite
    exact congrArg (Term.mk · t.power) (Binary.toWord_ofWord hnumber)
  rw [List.map_map]
  exact (List.map_congr_left hstored).trans (List.map_id terms)

/-- A polynomial with finite coefficients that is printed without a precision is read back: its
terms are read, in their order, and the words of the numbers that are read are those that were
printed.  One with an infinity or a non-number among its coefficients is refused at the first letter
of its word, whichever sign is written in front of it. -/
theorem parse_text (p : Poly f (Word f)) (alternate padZeros : Bool) (alignment : Alignment)
    (width : Nat) :
    ((∀ t ∈ p.terms, (Binary.ofWord t.coefficient).isFinite = true) →
      Poly.parse f (p.text { alternate, padZeros, alignment, width }) = .ok p.number ∧
      p.number.terms.map Term.stored = p.terms ∧
      (p ≠ 0 → readTerms f (p.text { alternate, padZeros, alignment, width }) =
        .ok (p.terms.map Term.number))) ∧
    ((∃ t ∈ p.terms, (Binary.ofWord t.coefficient).isFinite = false) →
      ∃ position c, (c = 'i' ∨ c = 'N') ∧
        readTerms f (p.text { alternate, padZeros, alignment, width }) =
          .error (.unexpectedChar position c) ∧
        Poly.parse f (p.text { alternate, padZeros, alignment, width }) =
          .error (.unexpectedChar position c)) := by
  constructor
  · intro hfinite
    have hread : readTerms f (p.text { alternate, padZeros, alignment, width }) =
        .ok (p.printedTerms.map Term.number) :=
      readTerms_text rfl rfl rfl (Poly.isFinite_of_mem_printedTerms hfinite)
    refine ⟨?_, map_stored_map_number hfinite, fun hne ↦ ?_⟩
    · rw [Poly.parse, hread, ← Poly.printedTerms_number]
      exact congrArg Except.ok p.number.ofTerms_printedTerms
    · have hterms : p.terms ≠ [] := fun hnil ↦ hne (Poly.ext hnil)
      rw [hread, Poly.printedTerms_of_ne hterms]
  · rintro ⟨t, ht, hfinite⟩
    have hprinted : t ∈ p.printedTerms :=
      Poly.printedTerms_of_ne (List.ne_nil_of_mem ht) ▸ ht
    have hread : ∃ position c, (c = 'i' ∨ c = 'N') ∧
        readTerms f (p.text { alternate, padZeros, alignment, width }) =
          .error (.unexpectedChar position c) :=
      readTerms_text_of_not_finite rfl rfl hprinted hfinite
    obtain ⟨position, c, hc, hread⟩ := hread
    refine ⟨position, c, hc, hread, ?_⟩
    rw [Poly.parse, hread]
    rfl

/-- The text of `-x^2 + 1` is read back, and `-NaNx - NaN` is refused. -/
theorem parse_text_quadratic :
    ∃ p q : Poly .double (Word .double),
      p.terms = [⟨⟨0xbff0000000000000#64⟩, 2⟩, ⟨⟨0x3ff0000000000000#64⟩, 0⟩] ∧
      q.terms = [⟨⟨0xfff8000000000000#64⟩, 1⟩, ⟨⟨0xfff8000000000001#64⟩, 0⟩] ∧
      q.text {} = "-NaNx - NaN".toList ∧
      Poly.parse .double (p.text {}) = .ok p.number ∧
      ∃ position c, Poly.parse .double (q.text {}) = .error (.unexpectedChar position c) := by
  let p : Poly .double (Word .double) :=
    ⟨[⟨⟨0xbff0000000000000#64⟩, 2⟩, ⟨⟨0x3ff0000000000000#64⟩, 0⟩], by decide +kernel,
      by decide +kernel⟩
  let q : Poly .double (Word .double) :=
    ⟨[⟨⟨0xfff8000000000000#64⟩, 1⟩, ⟨⟨0xfff8000000000001#64⟩, 0⟩], by decide +kernel,
      by decide +kernel⟩
  have hp : ∀ t ∈ p.terms, (Binary.ofWord t.coefficient).isFinite = true := by decide +kernel
  have hq : ∃ t ∈ q.terms, (Binary.ofWord t.coefficient).isFinite = false := by decide +kernel
  obtain ⟨position, c, -, -, hread⟩ := (parse_text q false false .right 0).2 hq
  exact ⟨p, q, rfl, rfl, by decide +kernel, ((parse_text p false false .right 0).1 hp).1, position, c,
    hread⟩

end FloatPolynomial
