import FloatPolynomial.Proofs.Decimal.Nearest
import FloatPolynomial.Proofs.Decimal.Notation
import FloatPolynomial.Proofs.Results
import FloatPolynomial.Proofs.Text.Cut
import FloatPolynomial.Proofs.Text.Scanned
import FloatPolynomial.Text.Reader

/-!
# The Grammar of Polynomials

A text without white space denotes a list of terms if it can be cut into pieces that consist of
an optional sign, an optional number, and an optional variable with an optional exponent.  The
grammar is stated for the parts of a piece, so that a piece carries its own derivation, and its
meaning is read off the parts.

Every derivation is found, because the parts of a grammatical piece reach as far as they can.
-/

namespace FloatPolynomial

variable {f : Format}

namespace VariablePart

/-- An exponent is a number of 32 bits in digits. -/
def Grammatical : VariablePart → Prop
  | raised digits =>
    digits ≠ [] ∧ (∀ c ∈ digits, c.isDigit = true) ∧ ofDigits digits < UInt32.size
  | _ => True

/-- The power that a variable denotes. -/
def power : VariablePart → UInt32
  | absent => 0
  | alone => 1
  | raised digits => UInt32.ofNat (ofDigits digits)

theorem eq_of_mem_head?_text {v : VariablePart} {c : Char} (h : c ∈ v.text.head?) : c = 'x' := by
  cases v with
  | absent => cases h
  | alone => exact (Option.some.inj h).symm
  | raised digits => exact (Option.some.inj h).symm

end VariablePart

namespace Piece

/-- An optional sign, an optional number and an optional variable, and nothing else. -/
structure Grammatical (p : Piece) : Prop where
  sign : ∀ c ∈ p.sign, c = '+' ∨ c = '-'
  number : p.number = [] ∨ Decimal.IsNumber p.number
  variablePart : p.variablePart.Grammatical
  rest : p.rest = []

/-- The correctly rounded number of a piece, or one if it has none. -/
def magnitude (f : Format) (p : Piece) : Binary f :=
  if p.number = [] then 1 else (Decimal.ofNumber p.number).nearest f false

/-- The term that a grammatical piece denotes. -/
def meaning (f : Format) (p : Piece) : Term f :=
  ⟨(if p.sign = some '-' then -1 else 1) * p.magnitude f, p.variablePart.power⟩

theorem isSign_iff {c : Char} : isSign c = true ↔ c = '+' ∨ c = '-' := by
  rw [isSign, Bool.or_eq_true, beq_iff_eq, beq_iff_eq]

theorem isNumeric_iff {c : Char} : isNumeric c = true ↔ c.isDigit = true ∨ c = '.' := by
  rw [isNumeric, Bool.or_eq_true, beq_iff_eq]

theorem isSign_of_isNumeric {c : Char} (h : isNumeric c = true) : isSign c = false := by
  cases hsign : isSign c with
  | false => rfl
  | true =>
    rcases isSign_iff.mp hsign with rfl | rfl
    · exact absurd h (by decide)
    · exact absurd h (by decide)

theorem readMagnitude_eq_ok_iff {p : Piece} {start : Nat} {x : Binary f} :
    p.readMagnitude f start = .ok x ↔
      (p.number = [] ∨ Decimal.IsNumber p.number) ∧ x = p.magnitude f := by
  unfold readMagnitude magnitude
  by_cases hempty : p.number = []
  · simp only [hempty, List.isEmpty_nil, if_true, Except.ok.injEq, true_or, true_and, eq_comm]
  · rw [if_neg (by simpa using hempty), if_neg hempty, or_iff_right hempty]
    cases hread : Decimal.ofText? p.number with
    | none =>
      apply iff_of_false error_ne_ok
      intro h
      rw [Decimal.ofText?_eq_some_iff.mpr ⟨h.1, rfl⟩] at hread
      cases hread
    | some d =>
      obtain ⟨hnumber, rfl⟩ := Decimal.ofText?_eq_some_iff.mp hread
      dsimp only
      rw [and_iff_right hnumber, Decimal.toBinary_eq_nearest, Except.ok.injEq, eq_comm]

theorem readPower_eq_ok_iff {p : Piece} (h : p.Scanned) {start : Nat} {power : UInt32} :
    p.readPower start = .ok power ↔
      p.variablePart.Grammatical ∧ power = p.variablePart.power := by
  have hscanned := h.variablePart
  unfold readPower
  cases hv : p.variablePart with
  | absent =>
    rw [Except.ok.injEq, eq_comm]
    exact (and_iff_right trivial).symm
  | alone =>
    rw [Except.ok.injEq, eq_comm]
    exact (and_iff_right trivial).symm
  | raised digits =>
    rw [hv] at hscanned
    have hdigits : ∀ c ∈ digits, c.isDigit = true := hscanned.1
    dsimp only
    split
    · rename_i hempty
      exact iff_of_false error_ne_ok fun h ↦ h.1.1 (List.isEmpty_iff.mp hempty)
    · rename_i hempty
      split
      · rename_i hfits
        rw [Except.ok.injEq, eq_comm]
        refine (and_iff_right ⟨?_, hdigits, hfits⟩).symm
        exact fun hnil ↦ hempty (List.isEmpty_iff.mpr hnil)
      · rename_i hlarge
        exact iff_of_false error_ne_ok fun h ↦ hlarge h.1.2.2

/-- A piece is read if and only if it is grammatical, and then as what it means. -/
theorem read_eq_ok_iff {p : Piece} (h : p.Scanned) {start : Nat} {t : Term f} :
    p.read f start = .ok t ↔ p.Grammatical ∧ t = p.meaning f := by
  have hsign : (if p.sign = some '-' then -p.magnitude f else p.magnitude f) =
      (if p.sign = some '-' then -1 else 1) * p.magnitude f := by
    split
    · exact (Binary.neg_one_mul _).symm
    · exact (Binary.one_mul _).symm
  rw [read, bind_eq_ok_iff]
  simp only [readMagnitude_eq_ok_iff, bind_eq_ok_iff, readPower_eq_ok_iff h]
  constructor
  · rintro ⟨_, ⟨hnumber, rfl⟩, _, ⟨hvariable, rfl⟩, hread⟩
    cases hrest : p.rest with
    | nil =>
      rw [hrest] at hread
      refine ⟨⟨fun c hc ↦ isSign_iff.mp (h.sign c hc), hnumber, hvariable, hrest⟩, ?_⟩
      rw [meaning, ← hsign]
      exact (Except.ok.inj hread).symm
    | cons c more =>
      rw [hrest] at hread
      cases hread
  · rintro ⟨hgrammatical, rfl⟩
    refine ⟨_, ⟨hgrammatical.number, rfl⟩, _, ⟨hgrammatical.variablePart, rfl⟩, ?_⟩
    rw [hgrammatical.rest, hsign]
    rfl

theorem Grammatical.isNumeric_of_mem {p : Piece} (h : p.Grammatical) {c : Char}
    (hc : c ∈ p.number) : isNumeric c = true := by
  rcases h.number with hempty | hnumber
  · rw [hempty] at hc
    cases hc
  · exact isNumeric_iff.mpr (hnumber.numeric c hc)

/-- The parts of a grammatical piece are those that its text is taken apart into. -/
theorem Grammatical.scanned {p : Piece} (h : p.Grammatical) : p.Scanned where
  sign c hc := isSign_iff.mpr (h.sign c hc)
  unsigned := by
    intro hnone c hc
    rw [text, head, hnone, h.rest, List.append_nil, Option.toList_none, List.nil_append] at hc
    cases hnumber : p.number with
    | nil =>
      rw [hnumber, List.nil_append] at hc
      rw [VariablePart.eq_of_mem_head?_text hc]
      rfl
    | cons d rest =>
      rw [hnumber] at hc
      obtain rfl : d = c := Option.some.inj hc
      exact isSign_of_isNumeric (h.isNumeric_of_mem (hnumber ▸ List.mem_cons_self))
  number c hc := h.isNumeric_of_mem hc
  stop := by
    intro c hc
    rw [h.rest, List.append_nil] at hc
    rw [VariablePart.eq_of_mem_head?_text hc]
    rfl
  variablePart := by
    have hgrammatical := h.variablePart
    rw [h.rest]
    cases hv : p.variablePart with
    | absent => exact (Option.some_ne_none 'x').symm
    | alone => exact (Option.some_ne_none '^').symm
    | raised digits =>
      rw [hv] at hgrammatical
      exact ⟨hgrammatical.2.1, by simp⟩

end Piece

/-! ## Reading a text -/

theorem readTerms_of_strip_eq_nil {text : List Char} (h : strip text = []) :
    readTerms f text = .error .empty := by
  rw [readTerms, h]
  rfl

theorem readTerms_of_strip_ne_nil {text : List Char} (h : strip text ≠ []) :
    readTerms f text =
      (placed 0 (pieces (strip text))).mapM fun (start, piece) ↦ (Piece.ofText piece).read f start := by
  rw [readTerms, if_neg (by simpa using h)]

theorem readTerms_eq_ok_iff {text : List Char} {terms : List (Term f)} :
    readTerms f text = .ok terms ↔
      strip text ≠ [] ∧ (∀ p ∈ (pieces (strip text)).map Piece.ofText, p.Grammatical) ∧
        terms = ((pieces (strip text)).map Piece.ofText).map (Piece.meaning f) := by
  by_cases hempty : strip text = []
  · rw [readTerms_of_strip_eq_nil hempty]
    exact iff_of_false error_ne_ok fun h ↦ h.1 hempty
  · have hplaced : (pieces (strip text)).map Piece.ofText =
        (placed 0 (pieces (strip text))).map fun pair ↦ Piece.ofText pair.2 := by
      conv_lhs => rw [← map_snd_placed 0 (pieces (strip text))]
      rw [List.map_map]
      rfl
    rw [readTerms_of_strip_ne_nil hempty, and_iff_right hempty, hplaced, List.forall_mem_map,
      List.map_map]
    exact mapM_eq_ok_iff_map fun pair t ↦ Piece.read_eq_ok_iff (Piece.scanned_ofText pair.2)

/-- A fault of a text that is not blank is a fault of one of its pieces. -/
theorem exists_read_eq_error {text : List Char} {e : ParseError} (hne : strip text ≠ [])
    (h : readTerms f text = .error e) :
    ∃ part ∈ pieces (strip text), ∃ start, (Piece.ofText part).read f start = .error e := by
  rw [readTerms_of_strip_ne_nil hne] at h
  obtain ⟨before, pair, after, hitems, -, hread⟩ := mapM_eq_error_iff.mp h
  have hmem : pair.2 ∈ (placed 0 (pieces (strip text))).map Prod.snd := by
    rw [hitems]
    simp
  rw [map_snd_placed] at hmem
  exact ⟨pair.2, hmem, pair.1, hread⟩

/-- There is at most one way to cut a text into scanned pieces. -/
theorem Cut.map_ofText {text : List Char} {parts : List Piece}
    (hcut : Cut text (parts.map Piece.text)) (h : ∀ p ∈ parts, p.Scanned) :
    (pieces text).map Piece.ofText = parts := by
  calc
    (pieces text).map Piece.ofText = parts.map (Piece.ofText ∘ Piece.text) := by
      rw [← hcut.eq_pieces, List.map_map]
    _ = parts.map id := List.map_congr_left fun p hp ↦ Piece.ofText_text (h p hp)
    _ = parts := List.map_id parts

/-- A text in the grammar is read as what it means. -/
theorem readTerms_of_cut {text : List Char} {parts : List Piece} (hne : strip text ≠ [])
    (hcut : Cut (strip text) (parts.map Piece.text)) (h : ∀ p ∈ parts, p.Grammatical) :
    readTerms f text = .ok (parts.map (Piece.meaning f)) := by
  rw [readTerms_eq_ok_iff, hcut.map_ofText fun p hp ↦ (h p hp).scanned]
  exact ⟨hne, h, rfl⟩

/-- The texts that are read are those of the grammar, each with its one meaning, and a polynomial
is built from the terms of its text. -/
theorem readTerms_grammar (text : List Char) (terms : List (Term f)) :
    (readTerms f text = .ok terms ↔
      strip text ≠ [] ∧ ∃ parts : List Piece, Cut (strip text) (parts.map Piece.text) ∧
        (∀ p ∈ parts, p.Grammatical) ∧ terms = parts.map (Piece.meaning f)) ∧
    Poly.parse f text = (readTerms f text).map Poly.ofTerms := by
  refine ⟨⟨?_, ?_⟩, ?_⟩
  · intro hread
    obtain ⟨hne, hgrammatical, hterms⟩ := readTerms_eq_ok_iff.mp hread
    have htext : ((pieces (strip text)).map Piece.ofText).map Piece.text = pieces (strip text) := by
      rw [List.map_map]
      exact List.map_id'' Piece.text_ofText _
    exact ⟨hne, _, cut_iff.mpr htext, hgrammatical, hterms⟩
  · rintro ⟨hne, parts, hcut, hgrammatical, rfl⟩
    exact readTerms_of_cut hne hcut hgrammatical
  · rw [Poly.parse]
    cases readTerms f text <;> rfl

-- The sign of a zero is kept, and a number that is too large is read as an infinity.
example : readTerms .double ['-', '0'] = .ok [⟨-0, 0⟩] := by decide +kernel

example : readTerms .double (List.replicate 400 '9') = .ok [⟨.infinite false, 0⟩] := by
  decide +kernel

-- White space may stand anywhere, also between the digits of an exponent, and in any of its forms.
example :
    readTerms .double "3 x\u00a0^ 1\u30002\t- x^07\n".toList =
      .ok [⟨.ofBits .double 0x4008000000000000, 12⟩, ⟨-1, 7⟩] := by
  decide +kernel

end FloatPolynomial
