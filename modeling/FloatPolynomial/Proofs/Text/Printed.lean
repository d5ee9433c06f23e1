import FloatPolynomial.Proofs.Decimal.PositionalText
import FloatPolynomial.Proofs.Text.Grammar
import FloatPolynomial.Text.Printer

/-!
# Printed Texts as Pieces

Without its white space, the text of a polynomial is the texts of one piece for each term.  A piece
is written down here by its parts, from the term and the sign in front of it; `cut_text` says that
a printed text is cut into these pieces, whatever the coefficients are.  Styles are those that fill
with blanks and write no plus sign: in front of a sign that separates two terms, any other would
be read as a piece of its own.
-/

namespace FloatPolynomial

variable {f : Format} {α : Type} [Zero α] [Coefficient f α]

/-- Neither white space nor a sign, as all characters of a printed term are after its sign. -/
def IsPlain (c : Char) : Prop :=
  isBlank c = false ∧ isSign c = false

instance (c : Char) : Decidable (IsPlain c) :=
  inferInstanceAs (Decidable (_ ∧ _))

theorem isPlain_of_isNumeric {c : Char} (h : Piece.isNumeric c = true) : IsPlain c := by
  refine ⟨?_, Piece.isSign_of_isNumeric h⟩
  rcases Piece.isNumeric_iff.mp h with hdigit | rfl
  · have hrange : 48 ≤ c.toNat ∧ c.toNat ≤ 57 := Char.isDigit_iff_toNat.mp hdigit
    simp only [isBlank, blankRanges, List.any_cons, List.any_nil, Bool.or_false,
      Bool.or_eq_false_iff, decide_eq_false_iff_not]
    omega
  · decide

theorem isPlain_of_isDigit {c : Char} (h : c.isDigit = true) : IsPlain c :=
  isPlain_of_isNumeric (Piece.isNumeric_iff.mpr (Or.inl h))

theorem strip_of_plain {text : List Char} (h : ∀ c ∈ text, IsPlain c) : strip text = text :=
  List.filter_eq_self.mpr fun c hc ↦ by rw [(h c hc).1]; rfl

theorem strip_replicate_blank (count : Nat) : strip (List.replicate count ' ') = [] := by
  rw [strip, List.filter_eq_nil_iff]
  intro c hc
  rw [List.eq_of_mem_replicate hc]
  decide

namespace NumberStyle

/-- The text of a magnitude before it is padded. -/
def body (style : NumberStyle) : Binary f → List Char
  | .nan => ['N', 'a', 'N']
  | .infinite _ => ['i', 'n', 'f']
  | .finite _ units _ => style.finiteText f units

/-- The zeros that the style puts in front of a text. -/
def zeros (style : NumberStyle) (text : List Char) : List Char :=
  List.replicate (if style.padZeros then style.width - text.length else 0) '0'

/-- The decimal that is written for a number of units. -/
def decimal (style : NumberStyle) (f : Format) (units : Nat) : Decimal :=
  match style.precision with
  | none => .shortest f .up units
  | some places => .fixed f places units

theorem finiteText_eq (style : NumberStyle) (units : Nat) :
    style.finiteText f units = (style.decimal f units).toText := by
  unfold finiteText decimal
  cases style.precision <;> rfl

theorem magnitudeText_eq {style : NumberStyle} (hplus : style.plus = false) (x : Binary f) :
    style.magnitudeText x = style.pad [] (style.body x) := by
  cases x <;> simp [magnitudeText, body, hplus]

/-- The style of what follows a sign, which takes up some of the width. -/
def afterSign (style : NumberStyle) (sign : List Char) : NumberStyle :=
  { style with plus := false, width := style.width - sign.length }

theorem strip_pad_sign {style : NumberStyle} (hfill : style.fill = ' ') {sign text : List Char}
    (hsign : ∀ c ∈ sign, isBlank c = false) (h : ∀ c ∈ text, IsPlain c) :
    strip (style.pad sign text) = sign ++ ((style.afterSign sign).zeros text ++ text) := by
  have hstrip : strip sign = sign :=
    List.filter_eq_self.mpr fun c hc ↦ by rw [hsign c hc]; rfl
  have hzeros : ∀ c ∈ (style.afterSign sign).zeros text, IsPlain c := fun c hc ↦
    isPlain_of_isDigit (isDigit_of_mem_replicate_zero hc)
  unfold pad
  rw [← Nat.sub_sub]
  cases hpad : style.padZeros with
  | true =>
    have hwidth : (style.afterSign sign).zeros text =
        List.replicate (style.width - sign.length - text.length) '0' := by
      rw [zeros, afterSign, hpad]
      rfl
    rw [if_pos rfl, strip_append, strip_append, ← hwidth, hstrip, strip_of_plain hzeros,
      strip_of_plain h, List.append_assoc]
  | false =>
    have hnone : (style.afterSign sign).zeros text = [] := by
      rw [zeros, afterSign, hpad]
      rfl
    rw [if_neg Bool.false_ne_true, hnone, hfill]
    simp only [strip_append, strip_replicate_blank, strip_of_plain h, hstrip, List.append_nil,
      List.nil_append]

theorem strip_pad {style : NumberStyle} (hfill : style.fill = ' ') {text : List Char}
    (h : ∀ c ∈ text, IsPlain c) : strip (style.pad [] text) = style.zeros text ++ text :=
  strip_pad_sign hfill (List.forall_mem_nil _) h

theorem isPlain_of_mem_body {style : NumberStyle} {x : Binary f} {c : Char}
    (h : c ∈ style.body x) : IsPlain c := by
  cases x with
  | nan =>
    simp only [body, List.mem_cons, List.not_mem_nil, or_false] at h
    rcases h with rfl | rfl | rfl <;> decide
  | infinite negative =>
    simp only [body, List.mem_cons, List.not_mem_nil, or_false] at h
    rcases h with rfl | rfl | rfl <;> decide
  | finite negative units hunits =>
    have hnumber := (Decimal.toText_spec 0 (style.decimal f units)).1
    rw [body, finiteText_eq] at h
    exact isPlain_of_isNumeric (Piece.isNumeric_iff.mpr (hnumber.numeric c h))

theorem body_ne_nil (style : NumberStyle) (x : Binary f) : style.body x ≠ [] := by
  cases x with
  | nan => exact List.cons_ne_nil _ _
  | infinite negative => exact List.cons_ne_nil _ _
  | finite negative units hunits =>
    obtain ⟨c, hc, -⟩ := (Decimal.toText_spec 0 (style.decimal f units)).1.digit
    rw [body, finiteText_eq]
    exact List.ne_nil_of_mem hc

end NumberStyle

namespace VariablePart

/-- The variable of a printed term. -/
def ofPower (power : UInt32) : VariablePart :=
  if power = 0 then absent
  else if power = 1 then alone
  else raised (digits power.toNat)

theorem text_ofPower (power : UInt32) : (ofPower power).text = Term.variableText power := by
  unfold ofPower Term.variableText
  split
  · rfl
  · split <;> rfl

theorem grammatical_ofPower (power : UInt32) : (ofPower power).Grammatical := by
  unfold ofPower
  split
  · trivial
  · split
    · trivial
    · refine ⟨digits_ne_nil _, fun c hc ↦ isDigit_of_mem_digits hc, ?_⟩
      rw [ofDigits_digits]
      exact power.toNat_lt

theorem power_ofPower (power : UInt32) : (ofPower power).power = power := by
  unfold ofPower
  split
  · rename_i hzero
    exact hzero.symm
  · split
    · rename_i hone
      exact hone.symm
    · change UInt32.ofNat (ofDigits (digits power.toNat)) = power
      rw [ofDigits_digits, UInt32.ofNat_toNat]

theorem isPlain_of_mem_text {power : UInt32} {c : Char} (h : c ∈ (ofPower power).text) :
    IsPlain c := by
  unfold ofPower at h
  split at h
  · cases h
  · split at h
    · rw [List.mem_singleton.mp h]
      decide
    · rcases List.mem_cons.mp h with rfl | h
      · decide
      · rcases List.mem_cons.mp h with rfl | h
        · decide
        · exact isPlain_of_isDigit (isDigit_of_mem_digits h)

theorem text_ofPower_ne_nil {power : UInt32} (h : power ≠ 0) : (ofPower power).text ≠ [] := by
  rw [ofPower, if_neg h]
  split <;> exact List.cons_ne_nil _ _

end VariablePart

/-! ## Terms -/

namespace Term

/-- A coefficient one in front of the variable, which is not written. -/
def Unwritten (t : Term f) : Prop :=
  t.power ≠ 0 ∧ t.coefficient.abs = 1

theorem unwritten_iff {t : Term f} :
    t.Unwritten ↔ t.power ≠ 0 ∧ t.coefficient.abs.isOne = true := by
  rw [Unwritten, Binary.isOne_iff]

instance (t : Term f) : Decidable t.Unwritten :=
  inferInstanceAs (Decidable (_ ∧ _))

/-- The coefficient of a printed term without its sign; nothing if it is one in front of the
variable. -/
def printedNumber (style : NumberStyle) (t : Term f) : List Char :=
  if t.power ≠ 0 ∧ t.coefficient.abs.isOne then []
  else style.zeros (style.body t.coefficient) ++ style.body t.coefficient

/-- The piece that a printed term is, after the given sign. -/
def printed (style : NumberStyle) (sign : Option Char) (t : Term f) : Piece :=
  { sign, number := t.printedNumber style, variablePart := .ofPower t.power, rest := [] }

/-- A sign that a term may be printed with: a minus sign if and only if it is negative. -/
structure Signs (t : Term f α) (sign : Option Char) : Prop where
  char : ∀ c ∈ sign, c = '+' ∨ c = '-'
  minus : sign = some '-' ↔ Coefficient.isNegative t.coefficient = true

/-- The sign of a term is that of its number, if it has one. -/
theorem Signs.number {t : Term f α} {sign : Option Char} (h : t.Signs sign)
    (hnumber : t.number.coefficient ≠ .nan) : t.number.Signs sign where
  char := h.char
  minus := by
    rw [h.minus, Coefficient.isNegative_eq hnumber]
    rfl

theorem text_printed (style : NumberStyle) (sign : Option Char) (t : Term f) :
    (t.printed style sign).text =
      sign.toList ++ (t.printedNumber style ++ (VariablePart.ofPower t.power).text) := by
  rw [Piece.text, Piece.head, printed]
  dsimp only
  rw [List.append_nil, List.append_assoc]

theorem isPlain_of_mem_printedNumber {style : NumberStyle} {t : Term f} {c : Char}
    (h : c ∈ t.printedNumber style) : IsPlain c := by
  unfold printedNumber at h
  split at h
  · cases h
  · rcases List.mem_append.mp h with h | h
    · exact isPlain_of_isDigit (isDigit_of_mem_replicate_zero h)
    · exact NumberStyle.isPlain_of_mem_body h

/-- After its sign a printed term has plain characters, and at least one. -/
theorem isPlain_unsigned (style : NumberStyle) (t : Term f) :
    ∀ c ∈ t.printedNumber style ++ (VariablePart.ofPower t.power).text, IsPlain c := by
  intro c hc
  rcases List.mem_append.mp hc with hc | hc
  · exact isPlain_of_mem_printedNumber hc
  · exact VariablePart.isPlain_of_mem_text hc

theorem unsigned_ne_nil (style : NumberStyle) (t : Term f) :
    t.printedNumber style ++ (VariablePart.ofPower t.power).text ≠ [] := by
  unfold printedNumber
  split
  · rename_i hone
    exact List.append_ne_nil_of_right_ne_nil _ (VariablePart.text_ofPower_ne_nil hone.1)
  · exact List.append_ne_nil_of_left_ne_nil (List.append_ne_nil_of_right_ne_nil _
      (style.body_ne_nil t.coefficient)) _

theorem text_printed_ne_nil (style : NumberStyle) (sign : Option Char) (t : Term f) :
    (t.printed style sign).text ≠ [] := by
  rw [text_printed]
  exact List.append_ne_nil_of_right_ne_nil _ (t.unsigned_ne_nil style)

/-- No sign stands inside a printed term. -/
theorem isSign_of_mem_tail_text_printed (style : NumberStyle) (sign : Option Char) (t : Term f) :
    ∀ c ∈ (t.printed style sign).text.tail, isSign c = false := by
  intro c hc
  rw [text_printed] at hc
  cases sign with
  | none => exact (t.isPlain_unsigned style c (List.mem_of_mem_tail hc)).2
  | some _ => exact (t.isPlain_unsigned style c hc).2

theorem strip_variableText (power : UInt32) :
    strip (variableText power) = (VariablePart.ofPower power).text := by
  rw [← VariablePart.text_ofPower]
  exact strip_of_plain fun c hc ↦ VariablePart.isPlain_of_mem_text hc

theorem strip_unsignedText {style : NumberStyle} (hplus : style.plus = false)
    (hfill : style.fill = ' ') (t : Term f) :
    strip (t.unsignedText style) =
      t.printedNumber style ++ (VariablePart.ofPower t.power).text := by
  unfold unsignedText printedNumber
  dsimp only
  rw [strip_append, strip_variableText]
  split
  · rfl
  · rw [NumberStyle.magnitudeText_eq hplus,
      NumberStyle.strip_pad hfill fun c hc ↦ NumberStyle.isPlain_of_mem_body hc]

/-- The sign of the first term. -/
def leadingSign (t : Term f α) : Option Char :=
  if Coefficient.isNegative t.coefficient then some '-' else none

/-- The sign between a term and the one before it. -/
def separator (t : Term f α) : Option Char :=
  some (if Coefficient.isNegative t.coefficient then '-' else '+')

theorem signs_leadingSign (t : Term f α) : t.Signs t.leadingSign := by
  unfold leadingSign
  constructor <;> cases Coefficient.isNegative t.coefficient <;> simp

theorem signs_separator (t : Term f α) : t.Signs t.separator := by
  unfold separator
  constructor <;> cases Coefficient.isNegative t.coefficient <;> simp

end Term

/-- The pieces of printed terms. -/
def printedPieces (style : NumberStyle) : List (Term f α) → List Piece
  | [] => []
  | first :: others =>
    first.number.printed style first.leadingSign ::
      others.map fun t ↦ t.number.printed style t.separator

theorem mem_printedPieces {style : NumberStyle} {terms : List (Term f α)} {p : Piece}
    (h : p ∈ printedPieces style terms) :
    ∃ t ∈ terms, ∃ sign, t.Signs sign ∧ p = t.number.printed style sign := by
  cases terms with
  | nil => cases h
  | cons first others =>
    rcases List.mem_cons.mp h with rfl | h
    · exact ⟨first, List.mem_cons_self, _, first.signs_leadingSign, rfl⟩
    · obtain ⟨t, ht, rfl⟩ := List.mem_map.mp h
      exact ⟨t, List.mem_cons_of_mem _ ht, _, t.signs_separator, rfl⟩

theorem exists_mem_printedPieces (style : NumberStyle) {terms : List (Term f α)} {t : Term f α}
    (h : t ∈ terms) : ∃ sign, t.Signs sign ∧ t.number.printed style sign ∈ printedPieces style terms := by
  cases terms with
  | nil => cases h
  | cons first others =>
    rcases List.mem_cons.mp h with rfl | h
    · exact ⟨_, t.signs_leadingSign, List.mem_cons_self⟩
    · exact ⟨_, t.signs_separator, List.mem_cons_of_mem _ (List.mem_map.mpr ⟨t, h, rfl⟩)⟩

/-- The terms that are printed: a zero stands for the zero polynomial. -/
def Poly.printedTerms (p : Poly f α) : List (Term f α) :=
  if p.isZero then [⟨0, 0⟩] else p.terms

theorem Poly.printedTerms_ne_nil (p : Poly f α) : p.printedTerms ≠ [] := by
  unfold printedTerms
  split
  · exact List.cons_ne_nil _ _
  · rename_i hzero
    exact fun hterms ↦ hzero (List.isEmpty_iff.mpr hterms)

/-- The zero polynomial is written as the term that stands for it. -/
theorem Poly.text_of_printedTerms {p : Poly f α} {first : Term f α} {others : List (Term f α)}
    (h : p.printedTerms = first :: others) (style : NumberStyle) :
    p.text style = first.text style ++ others.flatMap (Term.followingText style) := by
  unfold printedTerms isZero at h
  unfold text
  cases hterms : p.terms with
  | nil =>
    rw [hterms, List.isEmpty_nil, if_pos rfl] at h
    obtain ⟨rfl, rfl⟩ := List.cons.inj h
    have hsign : Coefficient.isNegative (0 : α) ≠ true := by
      rw [Coefficient.isNegative_zero]
      exact Bool.false_ne_true
    rw [Term.text, if_neg hsign, Term.number, Coefficient.number_zero, Term.unsignedText,
      if_neg fun h ↦ h.1 rfl, List.flatMap_nil, List.append_nil]
    exact (List.append_nil _).symm
  | cons own rest =>
    rw [hterms, List.isEmpty_cons, if_neg Bool.false_ne_true] at h
    obtain ⟨rfl, rfl⟩ := List.cons.inj h
    rfl

theorem Term.strip_text (style : NumberStyle) (t : Term f α) :
    strip (t.text style) = t.leadingSign.toList ++ strip (t.number.unsignedText style) := by
  rw [Term.text, strip_append, leadingSign]
  cases Coefficient.isNegative t.coefficient <;> rfl

theorem Term.strip_followingText (style : NumberStyle) (t : Term f α) :
    strip (t.followingText style) = t.separator.toList ++ strip (t.number.unsignedText style) := by
  rw [followingText, strip_append, separator]
  cases Coefficient.isNegative t.coefficient <;> rfl

theorem strip_text {style : NumberStyle} (hplus : style.plus = false) (hfill : style.fill = ' ')
    (p : Poly f α) :
    strip (p.text style) = ((printedPieces style p.printedTerms).map Piece.text).flatten := by
  obtain ⟨first, others, hterms⟩ := List.exists_cons_of_ne_nil p.printedTerms_ne_nil
  have hothers (others : List (Term f α)) : strip (others.flatMap (Term.followingText style)) =
      ((others.map fun t ↦ t.number.printed style t.separator).map Piece.text).flatten := by
    induction others with
    | nil => rfl
    | cons t rest ih =>
      rw [List.flatMap_cons, strip_append, ih, Term.strip_followingText,
        Term.strip_unsignedText hplus hfill, ← Term.text_printed]
      rfl
  rw [Poly.text_of_printedTerms hterms, strip_append, hothers, Term.strip_text,
    Term.strip_unsignedText hplus hfill, ← Term.text_printed, hterms]
  rfl

/-- A printed text is cut into the pieces of its terms. -/
theorem cut_text {style : NumberStyle} (hplus : style.plus = false) (hfill : style.fill = ' ')
    (p : Poly f α) :
    Cut (strip (p.text style)) ((printedPieces style p.printedTerms).map Piece.text) where
  flatten := (strip_text hplus hfill p).symm
  nonempty := by
    intro part hpart
    obtain ⟨piece, hpiece, rfl⟩ := List.mem_map.mp hpart
    obtain ⟨t, -, sign, -, rfl⟩ := mem_printedPieces hpiece
    exact t.number.text_printed_ne_nil style sign
  unbroken := by
    intro part hpart
    obtain ⟨piece, hpiece, rfl⟩ := List.mem_map.mp hpart
    obtain ⟨t, -, sign, -, rfl⟩ := mem_printedPieces hpiece
    exact t.number.isSign_of_mem_tail_text_printed style sign
  atSigns := by
    intro part hpart
    cases hterms : p.printedTerms with
    | nil =>
      rw [hterms] at hpart
      cases hpart
    | cons first others =>
      rw [hterms] at hpart
      obtain ⟨piece, hpiece, rfl⟩ := List.mem_map.mp hpart
      obtain ⟨t, -, rfl⟩ := List.mem_map.mp hpiece
      rw [Term.text_printed, Term.separator]
      cases Coefficient.isNegative t.coefficient <;> rfl

end FloatPolynomial
