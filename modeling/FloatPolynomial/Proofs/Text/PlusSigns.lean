import FloatPolynomial.Binary.Encoding
import FloatPolynomial.Proofs.Text.RoundTrip

/-!
# Printing With Plus Signs

With plus signs every coefficient that is written carries one of its own, after the sign of its
term.  A text is cut before each sign, so the sign of the term is then a piece by itself, which
reads as one or minus one, and the coefficient behind it is read without its sign.  `signedTerms`
says which terms are read; they are those of the polynomial only if no sign stands in front of a
coefficient that is written.
-/

namespace FloatPolynomial

variable {f : Format}

namespace Term

/-- The terms that a term is read as, with a sign in front of it or without one. -/
def signed (signIsWritten : Bool) (t : Term f) : List (Term f) :=
  if t.Unwritten then [t]
  else
    (if signIsWritten then [⟨if t.coefficient.isNegative then -1 else 1, 0⟩] else []) ++
      [⟨t.coefficient.abs, t.power⟩]

end Term

/-- The terms that are read where terms are written with plus signs. -/
def signedTerms : List (Term f) → List (Term f)
  | [] => []
  | first :: others =>
    first.signed first.coefficient.isNegative ++ others.flatMap (Term.signed true)

namespace Binary

variable (x : Binary f)

@[simp]
theorem abs_abs : x.abs.abs = x.abs := by
  cases x <;> rfl

@[simp]
theorem isFinite_abs : x.abs.isFinite = x.isFinite := by
  cases x <;> rfl

@[simp]
theorem isNegative_abs : x.abs.isNegative = false := by
  cases x <;> rfl

variable {x}

theorem abs_of_isNegative_eq_false (h : x.isNegative = false) : x.abs = x := by
  cases x with
  | nan => rfl
  | infinite negative =>
    obtain rfl : negative = false := h
    rfl
  | finite negative units hunits =>
    obtain rfl : negative = false := h
    rfl

end Binary

namespace NumberStyle

theorem body_abs (style : NumberStyle) (x : Binary f) : style.body x.abs = style.body x := by
  cases x <;> rfl

theorem body_afterSign (style : NumberStyle) (sign : List Char) (x : Binary f) :
    (style.afterSign sign).body x = style.body x := by
  cases x <;> rfl

theorem magnitudeText_of_plus {style : NumberStyle} (hplus : style.plus = true) {x : Binary f}
    (hfinite : x.isFinite = true) : style.magnitudeText x = style.pad ['+'] (style.body x) := by
  cases x with
  | nan => cases hfinite
  | infinite negative => cases hfinite
  | finite negative units h => simp [magnitudeText, body, hplus]

end NumberStyle

/-- A sign that is cut off from its term. -/
def Piece.ofSign (sign : Char) : Piece where
  sign := some sign
  number := []
  variablePart := .absent
  rest := []

namespace Term

variable {style : NumberStyle} {sign : Option Char}

/-- The style of the digits after a plus sign. -/
def digitStyle (style : NumberStyle) : NumberStyle :=
  style.afterSign ['+']

/-- The pieces of a term that is written with plus signs after the given sign. -/
def plusPieces (style : NumberStyle) (sign : Option Char) (t : Term f) : List Piece :=
  if t.Unwritten then [t.printed (digitStyle style) sign]
  else sign.toList.map Piece.ofSign ++ [t.printed (digitStyle style) (some '+')]

theorem strip_unsignedText_of_plus (hplus : style.plus = true) (hfill : style.fill = ' ')
    {t : Term f} (hfinite : t.coefficient.isFinite = true) :
    strip (t.unsignedText style) =
      (t.printed (digitStyle style) (if t.Unwritten then none else some '+')).text := by
  unfold unsignedText
  dsimp only
  rw [strip_append, strip_variableText, text_printed, printedNumber]
  by_cases hone : t.Unwritten
  · rw [if_pos (unwritten_iff.mp hone), if_pos hone, if_pos (unwritten_iff.mp hone)]
    rfl
  · have hplain : ∀ c ∈ style.body t.coefficient, IsPlain c := fun c hc ↦
      NumberStyle.isPlain_of_mem_body hc
    rw [if_neg (mt unwritten_iff.mpr hone), if_neg hone, if_neg (mt unwritten_iff.mpr hone),
      NumberStyle.magnitudeText_of_plus hplus hfinite,
      NumberStyle.strip_pad_sign hfill (List.forall_mem_singleton.mpr (by decide)) hplain,
      digitStyle, NumberStyle.body_afterSign, List.append_assoc]
    rfl

theorem plusPieces_ne_nil (style : NumberStyle) (sign : Option Char) (t : Term f) :
    t.plusPieces style sign ≠ [] := by
  unfold plusPieces
  split
  · exact List.cons_ne_nil _ _
  · exact List.append_ne_nil_of_right_ne_nil _ (List.cons_ne_nil _ _)

/-- A term is cut after the sign in front of it if its coefficient is written. -/
theorem cut_plusPieces (hplus : style.plus = true) (hfill : style.fill = ' ') {t : Term f}
    (hfinite : t.coefficient.isFinite = true) (sign : Option Char) :
    Cut (sign.toList ++ strip (t.unsignedText style))
      ((t.plusPieces style sign).map Piece.text) := by
  have hprinted (own : Option Char) : Cut (t.printed (digitStyle style) own).text
      [(t.printed (digitStyle style) own).text] :=
    cut_singleton (t.text_printed_ne_nil _ _) (t.isSign_of_mem_tail_text_printed _ _)
  rw [strip_unsignedText_of_plus hplus hfill hfinite, plusPieces]
  by_cases hone : t.Unwritten
  · rw [if_pos hone, if_pos hone, text_printed, Option.toList_none, List.nil_append, ← text_printed]
    exact hprinted sign
  rw [if_neg hone, if_neg hone, List.map_append]
  cases sign with
  | none => exact hprinted (some '+')
  | some c =>
    refine (cut_singleton (List.cons_ne_nil c []) (List.forall_mem_nil _)).append
      (hprinted (some '+')) ?_
    intro d hd
    rw [text_printed] at hd
    obtain rfl : '+' = d := Option.some.inj hd
    rfl

/-- The sign of the coefficient does not show in what is written after the plus sign. -/
theorem printed_abs (style : NumberStyle) (sign : Option Char) (t : Term f) :
    printed style sign ⟨t.coefficient.abs, t.power⟩ = t.printed style sign := by
  rw [printed, printed, printedNumber, printedNumber, Binary.abs_abs, NumberStyle.body_abs]

theorem signs_abs (t : Term f) : Signs ⟨t.coefficient.abs, t.power⟩ (some '+') where
  char c hc := Or.inl (Option.some.inj hc).symm
  minus := iff_of_false (by decide) (ne_true_of_eq_false (Binary.isNegative_abs _))

theorem grammatical_of_mem_plusPieces {t : Term f} (hfinite : t.coefficient.isFinite = true)
    (hsign : t.Signs sign) {piece : Piece} (h : piece ∈ t.plusPieces style sign) :
    piece.Grammatical := by
  unfold plusPieces at h
  split at h
  · rw [List.mem_singleton.mp h]
    exact grammatical_printed _ hfinite hsign
  rcases List.mem_append.mp h with h | h
  · obtain ⟨c, hc, rfl⟩ := List.mem_map.mp h
    refine ⟨fun d hd ↦ ?_, Or.inl rfl, trivial, rfl⟩
    rw [← Option.some.inj hd]
    exact hsign.char c (Option.mem_toList.mp hc)
  · rw [List.mem_singleton.mp h, ← printed_abs]
    apply grammatical_printed _ _ t.signs_abs
    rw [Binary.isFinite_abs, hfinite]

theorem meaning_ofSign {t : Term f} {c : Char} (hsign : t.Signs (some c)) :
    (Piece.ofSign c).meaning f = ⟨if t.coefficient.isNegative then -1 else 1, 0⟩ := by
  have hminus : (Piece.ofSign c).sign = some '-' ↔ t.coefficient.isNegative = true := hsign.minus
  have hmagnitude : (Piece.ofSign c).magnitude f = 1 := if_pos rfl
  rw [Piece.meaning, hmagnitude, Binary.mul_one]
  simp only [hminus]
  rfl

theorem map_meaning_plusPieces (hprecision : style.precision = none) {t : Term f}
    (hfinite : t.coefficient.isFinite = true) (hsign : t.Signs sign) :
    (t.plusPieces style sign).map (Piece.meaning f) = t.signed sign.isSome := by
  have hdigits : (digitStyle style).precision = none := hprecision
  have hwritten : (t.printed (digitStyle style) (some '+')).meaning f =
      ⟨t.coefficient.abs, t.power⟩ := by
    rw [← printed_abs]
    exact meaning_printed hdigits ((Binary.isFinite_abs _).trans hfinite) t.signs_abs
  unfold plusPieces signed
  split
  · exact congrArg (List.cons · []) (meaning_printed hdigits hfinite hsign)
  rw [List.map_append, List.map_singleton, hwritten]
  cases sign with
  | none => rfl
  | some c => exact congrArg (List.cons · _) (meaning_ofSign hsign)

end Term

/-! ## Polynomials -/

/-- The pieces of terms that are written with plus signs. -/
def plusPieces (style : NumberStyle) : List (Term f) → List Piece
  | [] => []
  | first :: others =>
    first.plusPieces style first.leadingSign ++
      others.flatMap fun t ↦ t.plusPieces style t.separator

theorem mem_plusPieces {style : NumberStyle} {terms : List (Term f)} {piece : Piece}
    (h : piece ∈ plusPieces style terms) :
    ∃ t ∈ terms, ∃ sign, t.Signs sign ∧ piece ∈ t.plusPieces style sign := by
  cases terms with
  | nil => cases h
  | cons first others =>
    rcases List.mem_append.mp h with h | h
    · exact ⟨first, List.mem_cons_self, _, first.signs_leadingSign, h⟩
    · obtain ⟨t, ht, hpiece⟩ := List.mem_flatMap.mp h
      exact ⟨t, List.mem_cons_of_mem _ ht, _, t.signs_separator, hpiece⟩

/-- By induction on the terms; each of them begins with a sign, where cuts are joined. -/
theorem cut_followingTexts {style : NumberStyle} (hplus : style.plus = true)
    (hfill : style.fill = ' ') {terms : List (Term f)}
    (hfinite : ∀ t ∈ terms, t.coefficient.isFinite = true) :
    Cut (strip (terms.flatMap (Term.followingText style)))
      ((terms.flatMap fun t ↦ t.plusPieces style t.separator).map Piece.text) ∧
    ∀ c ∈ (strip (terms.flatMap (Term.followingText style))).head?, isSign c = true := by
  induction terms with
  | nil =>
    refine ⟨cut_nil, fun c hc ↦ ?_⟩
    cases hc
  | cons t rest ih =>
    obtain ⟨ht, hrest⟩ := List.forall_mem_cons.mp hfinite
    obtain ⟨hcut, hsign⟩ := ih hrest
    rw [List.flatMap_cons, List.flatMap_cons, List.map_append, strip_append,
      Term.strip_followingText]
    refine ⟨(Term.cut_plusPieces hplus hfill ht t.separator).append hcut hsign, fun c hc ↦ ?_⟩
    obtain rfl : (if t.coefficient.isNegative then '-' else '+') = c := Option.some.inj hc
    cases t.coefficient.isNegative <;> rfl

theorem cut_text_of_plus {style : NumberStyle} (hplus : style.plus = true)
    (hfill : style.fill = ' ') {p : Poly f}
    (hfinite : ∀ t ∈ p.printedTerms, t.coefficient.isFinite = true) :
    Cut (strip (p.text style)) ((plusPieces style p.printedTerms).map Piece.text) := by
  obtain ⟨first, others, hterms⟩ := List.exists_cons_of_ne_nil p.printedTerms_ne_nil
  rw [hterms] at hfinite ⊢
  obtain ⟨hfirst, hothers⟩ := List.forall_mem_cons.mp hfinite
  obtain ⟨hcut, hsign⟩ := cut_followingTexts hplus hfill hothers
  rw [Poly.text_of_printedTerms hterms, strip_append, Term.strip_text, plusPieces, List.map_append]
  exact (Term.cut_plusPieces hplus hfill hfirst first.leadingSign).append hcut hsign

theorem map_meaning_plusPieces {style : NumberStyle} (hprecision : style.precision = none)
    {terms : List (Term f)} (hfinite : ∀ t ∈ terms, t.coefficient.isFinite = true) :
    (plusPieces style terms).map (Piece.meaning f) = signedTerms terms := by
  cases terms with
  | nil => rfl
  | cons first others =>
    obtain ⟨hfirst, hothers⟩ := List.forall_mem_cons.mp hfinite
    have hleading : first.leadingSign.isSome = first.coefficient.isNegative := by
      rw [Term.leadingSign, Coefficient.isNegative_binary]
      cases first.coefficient.isNegative <;> rfl
    rw [plusPieces, signedTerms, List.map_append, List.map_flatMap,
      Term.map_meaning_plusPieces hprecision hfirst first.signs_leadingSign, hleading]
    congr 1
    exact List.flatMap_congr fun t ht ↦
      Term.map_meaning_plusPieces hprecision (hothers t ht) t.signs_separator

/-- Nothing is split off where no sign stands in front of a coefficient that is written. -/
theorem signedTerms_eq_self {terms : List (Term f)}
    (hfirst : ∀ t ∈ terms.head?, t.coefficient.isNegative = true → t.Unwritten)
    (hothers : ∀ t ∈ terms.tail, t.Unwritten) : signedTerms terms = terms := by
  cases terms with
  | nil => rfl
  | cons first others =>
    have hhead : first.signed first.coefficient.isNegative = [first] := by
      unfold Term.signed
      split
      · rfl
      · rename_i hwritten
        have hsign : first.coefficient.isNegative = false :=
          eq_false_of_ne_true fun hnegative ↦ hwritten (hfirst first rfl hnegative)
        rw [hsign, Binary.abs_of_isNegative_eq_false hsign]
        rfl
    have htail : others.flatMap (Term.signed true) = others :=
      calc
        others.flatMap (Term.signed true) = others.flatMap ([·]) :=
          List.flatMap_congr fun t ht ↦ if_pos (hothers t ht)
        _ = others := List.flatMap_singleton' others
    rw [signedTerms, hhead, htail, List.singleton_append]

theorem readTerms_text_of_plus {style : NumberStyle} (hplus : style.plus = true)
    (hfill : style.fill = ' ') (hprecision : style.precision = none) {p : Poly f}
    (hfinite : ∀ t ∈ p.printedTerms, t.coefficient.isFinite = true) :
    readTerms f (p.text style) = .ok (signedTerms p.printedTerms) := by
  have hcut := cut_text_of_plus hplus hfill hfinite
  have hpieces : plusPieces style p.printedTerms ≠ [] := by
    obtain ⟨first, others, hterms⟩ := List.exists_cons_of_ne_nil p.printedTerms_ne_nil
    rw [hterms]
    exact List.append_ne_nil_of_left_ne_nil (first.plusPieces_ne_nil _ _) _
  rw [readTerms_of_cut (hcut.text_ne_nil (mt List.map_eq_nil_iff.mp hpieces)) hcut ?_,
    map_meaning_plusPieces hprecision hfinite]
  intro piece hpiece
  obtain ⟨t, ht, sign, hsign, hmem⟩ := mem_plusPieces hpiece
  exact Term.grammatical_of_mem_plusPieces (hfinite t ht) hsign hmem

/-- A polynomial with finite coefficients that is printed with plus signs and without a precision is
read as the terms of `signedTerms`.  It is read back if no sign stands in front of a coefficient
that is written. -/
theorem parse_text_plus {p : Poly f} (hfinite : ∀ t ∈ p.terms, t.coefficient.isFinite = true)
    (padZeros : Bool) (alignment : Alignment) (width : ℕ) :
    readTerms f (p.text { plus := true, padZeros, alignment, width }) =
      .ok (signedTerms p.printedTerms) ∧
    Poly.parse f (p.text { plus := true, padZeros, alignment, width }) =
      .ok (Poly.ofTerms (signedTerms p.printedTerms)) ∧
    ((∀ t ∈ p.terms.head?, t.coefficient.isNegative = true → t.Unwritten) →
      (∀ t ∈ p.terms.tail, t.Unwritten) →
      Poly.parse f (p.text { plus := true, padZeros, alignment, width }) = .ok p) := by
  have hread : readTerms f (p.text { plus := true, padZeros, alignment, width }) =
      .ok (signedTerms p.printedTerms) :=
    readTerms_text_of_plus rfl rfl rfl (Poly.isFinite_of_mem_printedTerms hfinite)
  have hparse : Poly.parse f (p.text { plus := true, padZeros, alignment, width }) =
      .ok (Poly.ofTerms (signedTerms p.printedTerms)) := by
    rw [Poly.parse, hread]
    rfl
  refine ⟨hread, hparse, fun hfirst hothers ↦ ?_⟩
  have hsame : signedTerms p.printedTerms = p.printedTerms := by
    unfold Poly.printedTerms
    split
    · rfl
    · exact signedTerms_eq_self hfirst hothers
  rw [hparse, hsame, Poly.ofTerms_printedTerms]

/-- The text `+2x^2 - x` is read back: the second coefficient is not written. -/
theorem parse_text_plus_difference :
    ∃ p : Poly .double, p.terms = [⟨Binary.ofBits .double 0x4000000000000000, 2⟩, ⟨-1, 1⟩] ∧
      p.text { plus := true } = "+2x^2 - x".toList ∧
      Poly.parse .double (p.text { plus := true }) = .ok p := by
  let p : Poly .double :=
    ⟨[⟨Binary.ofBits .double 0x4000000000000000, 2⟩, ⟨-1, 1⟩], by decide +kernel, by decide +kernel⟩
  have hfinite : ∀ t ∈ p.terms, t.coefficient.isFinite = true := by decide +kernel
  exact ⟨p, rfl, by decide +kernel,
    (parse_text_plus hfinite false .right 0).2.2 (by decide +kernel) (by decide +kernel)⟩

/-- The text of `2x + 3` is `+2x + +3`, which is read as `2x + 1 + 3`. -/
theorem parse_text_plus_sum :
    ∃ p q : Poly .double,
      p.terms = [⟨Binary.ofBits .double 0x4000000000000000, 1⟩,
        ⟨Binary.ofBits .double 0x4008000000000000, 0⟩] ∧
      q.terms = [⟨Binary.ofBits .double 0x4000000000000000, 1⟩,
        ⟨Binary.ofBits .double 0x4010000000000000, 0⟩] ∧
      p.text { plus := true } = "+2x + +3".toList ∧
      Poly.parse .double (p.text { plus := true }) = .ok q ∧
      Poly.parse .double (p.text { plus := true }) ≠ .ok p := by
  let p : Poly .double :=
    ⟨[⟨Binary.ofBits .double 0x4000000000000000, 1⟩, ⟨Binary.ofBits .double 0x4008000000000000, 0⟩],
      by decide +kernel, by decide +kernel⟩
  let terms : List (Term .double) := [⟨Binary.ofBits .double 0x4000000000000000, 1⟩, ⟨1, 0⟩,
    ⟨Binary.ofBits .double 0x4008000000000000, 0⟩]
  have hread : readTerms .double (p.text { plus := true }) = .ok terms := by decide +kernel
  have hparse : Poly.parse .double (p.text { plus := true }) = .ok (Poly.ofTerms terms) := by
    rw [Poly.parse, hread]
    rfl
  have hsum : (Poly.ofTerms terms).terms = [⟨Binary.ofBits .double 0x4000000000000000, 1⟩,
      ⟨Binary.ofBits .double 0x4010000000000000, 0⟩] := by
    rw [Poly.terms_ofTerms, canonicalize, sortTerms_eq_self (by decide +kernel)]
    decide +kernel
  refine ⟨p, Poly.ofTerms terms, rfl, hsum, by decide +kernel, hparse, fun hsame ↦ ?_⟩
  have hterms : (Poly.ofTerms terms).terms = p.terms :=
    congrArg Poly.terms (Except.ok.inj (hparse.symm.trans hsame))
  rw [hsum] at hterms
  exact absurd hterms (by decide +kernel)

end FloatPolynomial
