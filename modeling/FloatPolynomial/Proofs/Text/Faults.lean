import FloatPolynomial.Proofs.Text.Grammar
import FloatPolynomial.Text.Slice

/-!
# The First Fault of a Text

Why a text is refused.  The pieces before the refused one are grammatical, and of the faults that
a piece may have at once the one that comes first in this order is reported: a number that is not
one, a caret without digits, an exponent of more than 32 bits, and a character after which nothing
fits.  `FirstFault` states this for the parts of the piece, and `readTerms_eq_error_iff` that it is
what reading reports.

Positions are counted in bytes of the text without its white space.  What is reported as a token is
the slice of this text between the two reported positions.
-/

namespace FloatPolynomial

variable {f : Format}

namespace Piece

/-- The fault of a piece that stands after the text `front`.  Each fault excludes those that come
before it. -/
inductive Fault (front : List Char) (p : Piece) : ParseError → Prop
  | malformedNumber (hrun : p.number ≠ []) (hnumber : ¬Decimal.IsNumber p.number) :
    Fault front p (.malformedNumber (byteLength (front ++ p.sign.toList))
      (byteLength (front ++ p.sign.toList ++ p.number)) (String.ofList p.number))
  | missingExponent (hnumber : p.number = [] ∨ Decimal.IsNumber p.number)
      (hraised : p.variablePart = .raised []) :
    Fault front p (.missingExponent (byteLength (front ++ p.head)))
  | exponentOverflow {digits : List Char} (hnumber : p.number = [] ∨ Decimal.IsNumber p.number)
      (hraised : p.variablePart = .raised digits) (hlarge : UInt32.size ≤ ofDigits digits) :
    Fault front p (.exponentOverflow
      (byteLength (front ++ p.sign.toList ++ p.number ++ ['x', '^']))
      (byteLength (front ++ p.head)) (String.ofList digits))
  | unexpectedChar {c : Char} {others : List Char} (hhead : { p with rest := [] }.Grammatical)
      (hrest : p.rest = c :: others) :
    Fault front p (.unexpectedChar (byteLength (front ++ p.head)) c)

theorem head_of_raised {p : Piece} {digits : List Char} (h : p.variablePart = .raised digits) :
    p.head = p.sign.toList ++ p.number ++ ['x', '^'] ++ digits := by
  rw [head, h, List.append_assoc _ ['x', '^']]
  rfl

theorem readMagnitude_of_malformed {p : Piece} (start : Nat) (hrun : p.number ≠ [])
    (hnumber : ¬Decimal.IsNumber p.number) :
    p.readMagnitude f start = .error (.malformedNumber (start + byteLength p.sign.toList)
      (start + byteLength p.sign.toList + byteLength p.number) (String.ofList p.number)) := by
  have hnone : Decimal.ofText? p.number = none := by
    rw [Option.eq_none_iff_forall_ne_some]
    intro d hd
    exact hnumber (Decimal.ofText?_eq_some_iff.mp hd).1
  rw [readMagnitude, if_neg (by simpa using hrun), hnone]

/-- A fault is reported, whatever else is wrong after it. -/
theorem read_of_fault {p : Piece} (h : p.Scanned) {front : List Char} {e : ParseError}
    (hfault : p.Fault front e) : p.read f (byteLength front) = .error e := by
  have hmagnitude (hnumber : p.number = [] ∨ Decimal.IsNumber p.number) :
      p.readMagnitude f (byteLength front) = .ok (p.magnitude f) :=
    readMagnitude_eq_ok_iff.mpr ⟨hnumber, rfl⟩
  rw [read]
  cases hfault with
  | malformedNumber hrun hnumber =>
    rw [readMagnitude_of_malformed _ hrun hnumber, byteLength_append _ p.number,
      byteLength_append front]
    rfl
  | missingExponent hnumber hraised =>
    rw [hmagnitude hnumber, readPower, hraised, head_of_raised hraised, List.append_nil,
      byteLength_append front]
    rfl
  | @exponentOverflow digits hnumber hraised hlarge =>
    have hdigits : digits.isEmpty = false := by
      cases digits with
      | nil => exact absurd hlarge (by decide)
      | cons c rest => rfl
    have hfits : ¬ofDigits digits < UInt32.size := Nat.not_lt.mpr hlarge
    rw [hmagnitude hnumber, readPower, hraised, head_of_raised hraised]
    simp only [hdigits, Bool.false_eq_true, if_false, if_neg hfits, byteLength_append,
      Nat.add_assoc]
    rfl
  | unexpectedChar hhead hrest =>
    have hpower : p.readPower (byteLength front) = .ok p.variablePart.power :=
      (readPower_eq_ok_iff h).mpr ⟨hhead.variablePart, rfl⟩
    rw [hmagnitude hhead.number, hpower, hrest, byteLength_append]
    rfl

/-- A piece that is not grammatical has a fault. -/
theorem exists_fault {p : Piece} (h : p.Scanned) (hnot : ¬p.Grammatical) (front : List Char) :
    ∃ e, p.Fault front e := by
  by_cases hnumber : p.number = [] ∨ Decimal.IsNumber p.number
  · by_cases hvariable : p.variablePart.Grammatical
    · have hsign : ∀ c ∈ p.sign, c = '+' ∨ c = '-' := fun c hc ↦ isSign_iff.mp (h.sign c hc)
      have hrest : p.rest ≠ [] := fun hnil ↦ hnot ⟨hsign, hnumber, hvariable, hnil⟩
      obtain ⟨c, others, hrest⟩ := List.exists_cons_of_ne_nil hrest
      exact ⟨_, .unexpectedChar ⟨hsign, hnumber, hvariable, rfl⟩ hrest⟩
    · have hscanned := h.variablePart
      cases hraised : p.variablePart with
      | absent => rw [hraised] at hvariable; exact absurd trivial hvariable
      | alone => rw [hraised] at hvariable; exact absurd trivial hvariable
      | raised digits =>
        rw [hraised] at hvariable hscanned
        by_cases hempty : digits = []
        · exact ⟨_, .missingExponent hnumber (hempty ▸ hraised)⟩
        · have hdigits : ∀ c ∈ digits, c.isDigit = true := hscanned.1
          have hlarge : ¬ofDigits digits < UInt32.size :=
            fun hfits ↦ hvariable ⟨hempty, hdigits, hfits⟩
          exact ⟨_, .exponentOverflow hnumber hraised (Nat.not_lt.mp hlarge)⟩
  · obtain ⟨hrun, hnumber⟩ := not_or.mp hnumber
    exact ⟨_, .malformedNumber hrun hnumber⟩

theorem read_eq_error_iff {p : Piece} (h : p.Scanned) {front : List Char} {e : ParseError} :
    p.read f (byteLength front) = .error e ↔ p.Fault front e := by
  constructor
  · intro hread
    have hnot : ¬p.Grammatical := by
      intro hgrammatical
      rw [(read_eq_ok_iff h).mpr ⟨hgrammatical, rfl⟩] at hread
      cases hread
    obtain ⟨e', hfault⟩ := exists_fault h hnot front
    rw [read_of_fault h hfault] at hread
    cases hread
    exact hfault
  · exact read_of_fault h

theorem grammatical_ofText_iff {cs : List Char} :
    (ofText cs).Grammatical ↔ ∃ p : Piece, p.text = cs ∧ p.Grammatical := by
  constructor
  · intro h
    exact ⟨ofText cs, text_ofText cs, h⟩
  · rintro ⟨p, rfl, h⟩
    rw [ofText_text h.scanned]
    exact h

end Piece

/-! ## Faults of a text -/

/-- The fault of a text without white space: it is empty, or one of its pieces has a fault and all
pieces before it are grammatical. -/
inductive FirstFault (text : List Char) : ParseError → Prop
  | empty (h : text = []) : FirstFault text .empty
  | piece (before : List (List Char)) (p : Piece) (after : List (List Char)) {e : ParseError}
      (hcut : Cut text (before ++ p.text :: after)) (hscanned : p.Scanned)
      (hbefore : ∀ part ∈ before, ∃ q : Piece, q.text = part ∧ q.Grammatical)
      (hfault : p.Fault before.flatten e) : FirstFault text e

/-- What is reported is the first fault. -/
theorem readTerms_eq_error_iff {text : List Char} {e : ParseError} :
    readTerms f text = .error e ↔ FirstFault (strip text) e := by
  have hread (part : List Char) (start : Nat) :
      (∃ t, (Piece.ofText part).read f start = .ok t) ↔
        ∃ q : Piece, q.text = part ∧ q.Grammatical := by
    simp only [Piece.read_eq_ok_iff (Piece.scanned_ofText part), exists_and_left, exists_eq,
      and_true, Piece.grammatical_ofText_iff]
  constructor
  · intro h
    by_cases hempty : strip text = []
    · rw [readTerms_of_strip_eq_nil hempty] at h
      cases h
      exact .empty hempty
    · rw [readTerms_of_strip_ne_nil hempty] at h
      obtain ⟨before, ⟨start, part⟩, after, hitems, hbefore, hpart⟩ := mapM_eq_error_iff.mp h
      obtain ⟨hpieces, rfl⟩ := eq_of_placed_eq hitems
      rw [Nat.zero_add] at hpart
      have hscanned := Piece.scanned_ofText part
      have hfault := (Piece.read_eq_error_iff hscanned).mp hpart
      refine .piece _ (Piece.ofText part) (after.map Prod.snd) ?_ hscanned ?_ hfault
      · rw [Piece.text_ofText]
        exact cut_iff.mpr hpieces.symm
      · intro part hpart
        obtain ⟨pair, hpair, rfl⟩ := List.mem_map.mp hpart
        exact (hread pair.2 pair.1).mp (hbefore pair hpair)
  · rintro (hempty | ⟨before, p, after, hcut, hscanned, hbefore, hfault⟩)
    · exact readTerms_of_strip_eq_nil hempty
    · have hmem : p.text ∈ before ++ p.text :: after := by simp
      have hne : strip text ≠ [] := by
        intro hnil
        have hpart := List.flatten_eq_nil_iff.mp (hcut.flatten.trans hnil) _ hmem
        exact hcut.nonempty _ hmem hpart
      rw [readTerms_of_strip_ne_nil hne, ← hcut.eq_pieces, mapM_eq_error_iff]
      refine ⟨placed 0 before, (byteLength before.flatten, p.text),
        placed (byteLength before.flatten + byteLength p.text) after, ?_, ?_, ?_⟩
      · rw [placed_append, Nat.zero_add, placed]
      · intro pair hpair
        apply (hread pair.2 pair.1).mpr
        apply hbefore
        rw [← map_snd_placed 0 before]
        exact List.mem_map_of_mem hpair
      · rw [← Piece.ofText_text hscanned] at hfault
        exact (Piece.read_eq_error_iff (Piece.scanned_ofText p.text)).mpr hfault

/-! ## Positions and tokens -/

/-- The positions of an error point at what it reports in a text without white space: a token lies
between its positions, no digit follows the caret that lacks its exponent, and a character that
does not fit is found at its position and is no sign. -/
def ParseError.PointsInto (text : List Char) : ParseError → Prop
  | empty => text = []
  | malformedNumber start stop token => IsSlice text start stop token.toList
  | missingExponent position =>
    ∃ front back, text = front ++ ['x', '^'] ++ back ∧
      position = byteLength (front ++ ['x', '^']) ∧ ∀ c ∈ back.head?, c.isDigit = false
  | exponentOverflow start stop token => IsSlice text start stop token.toList
  | unexpectedChar position c =>
    IsSlice text position (position + c.utf8Size) [c] ∧ isSign c = false ∧ isBlank c = false

/-- Only the first character of a piece may be a sign, and it is taken for one. -/
theorem Piece.Scanned.isSign_of_mem_rest {p : Piece} (h : p.Scanned)
    (htail : ∀ c ∈ p.text.tail, isSign c = false) {c : Char} (hc : c ∈ p.rest) :
    isSign c = false := by
  rw [Piece.text] at htail
  cases hhead : p.head with
  | nil =>
    rw [hhead, List.nil_append] at htail
    obtain ⟨⟨hsign, -⟩, -⟩ : (p.sign.toList = [] ∧ p.number = []) ∧ p.variablePart.text = [] := by
      simpa only [Piece.head, List.append_eq_nil_iff] using hhead
    have hfirst := h.unsigned (Option.toList_eq_nil_iff.mp hsign)
    rw [Piece.text, hhead, List.nil_append] at hfirst
    cases hrest : p.rest with
    | nil =>
      rw [hrest] at hc
      cases hc
    | cons d others =>
      rw [hrest] at hc hfirst htail
      rcases List.mem_cons.mp hc with rfl | hothers
      · exact hfirst c rfl
      · exact htail c hothers
  | cons d others =>
    rw [hhead] at htail
    exact htail c (List.mem_append_right others hc)

/-- No digit follows the exponent of a piece, neither in the piece nor where the next one begins. -/
theorem Cut.stop_exponent {text digits : List Char} {p : Piece} {before after : List (List Char)}
    (hcut : Cut text (before ++ p.text :: after)) (hscanned : p.Scanned)
    (hraised : p.variablePart = .raised digits) :
    ∀ c ∈ (p.rest ++ after.flatten).head?, c.isDigit = false := by
  have hrest : ∀ c ∈ p.rest.head?, c.isDigit = false := by
    have hvariable := hscanned.variablePart
    rw [hraised] at hvariable
    exact hvariable.2
  cases hp : p.rest with
  | nil =>
    intro c hc
    rcases Piece.isSign_iff.mp (hcut.isSign_head?_of_append c hc) with rfl | rfl <;> rfl
  | cons d others =>
    rw [hp] at hrest
    exact hrest

theorem FirstFault.pointsInto {text : List Char} {e : ParseError} (h : FirstFault (strip text) e) :
    e.PointsInto (strip text) := by
  rcases h with hempty | ⟨before, p, after, hcut, hscanned, -, hfault⟩
  · exact hempty
  · have hmem : p.text ∈ before ++ p.text :: after := by simp
    have htext : strip text = before.flatten ++ (p.head ++ p.rest) ++ after.flatten := by
      rw [← hcut.flatten, List.flatten_append, List.flatten_cons, List.append_assoc]
      rfl
    cases hfault with
    | malformedNumber hrun hnumber =>
      refine ⟨before.flatten ++ p.sign.toList, p.variablePart.text ++ p.rest ++ after.flatten, ?_,
        rfl, ?_⟩
      · rw [htext, String.toList_ofList, Piece.head]
        simp only [List.append_assoc]
      · rw [String.toList_ofList]
    | missingExponent hnumber hraised =>
      have hhead : p.head = p.sign.toList ++ p.number ++ ['x', '^'] := by
        rw [Piece.head_of_raised hraised, List.append_nil]
      refine ⟨before.flatten ++ p.sign.toList ++ p.number, p.rest ++ after.flatten, ?_, ?_, ?_⟩
      · rw [htext, hhead]
        simp only [List.append_assoc]
      · rw [hhead]
        simp only [List.append_assoc]
      · exact hcut.stop_exponent hscanned hraised
    | @exponentOverflow digits hnumber hraised hlarge =>
      refine ⟨before.flatten ++ p.sign.toList ++ p.number ++ ['x', '^'], p.rest ++ after.flatten,
        ?_, rfl, ?_⟩
      · rw [htext, String.toList_ofList, Piece.head_of_raised hraised]
        simp only [List.append_assoc]
      · rw [String.toList_ofList, Piece.head_of_raised hraised]
        simp only [List.append_assoc]
    | @unexpectedChar c others hhead hrest =>
      have hc : c ∈ p.rest := hrest ▸ List.mem_cons_self
      refine ⟨⟨before.flatten ++ p.head, others ++ after.flatten, ?_, rfl, ?_⟩, ?_, ?_⟩
      · rw [htext, hrest]
        simp only [List.append_assoc, List.cons_append, List.nil_append]
      · rw [byteLength_append _ [c], byteLength_cons, byteLength_nil, Nat.add_zero]
      · exact hscanned.isSign_of_mem_rest (hcut.unbroken p.text hmem) hc
      · have hstripped : c ∈ strip text := by
          rw [htext]
          simp [hc]
        simpa using (List.mem_filter.mp hstripped).2

/-- A text is refused for its first fault and for nothing else, and the error points at it.  It is
reported as empty exactly if nothing but white space stands in it. -/
theorem readTerms_first_fault (text : List Char) (e : ParseError) :
    (readTerms f text = .error e ↔ FirstFault (strip text) e) ∧
    (readTerms f text = .error .empty ↔ strip text = []) ∧
    (readTerms f text = .error e → e.PointsInto (strip text)) := by
  refine ⟨readTerms_eq_error_iff, ⟨fun h ↦ ?_, readTerms_of_strip_eq_nil⟩, fun h ↦ ?_⟩
  · exact (readTerms_eq_error_iff.mp h).pointsInto
  · exact (readTerms_eq_error_iff.mp h).pointsInto

/-- Of two faults in one piece the number counts, and its slice is reported. -/
theorem readTerms_first_fault_number :
    readTerms .double ['2', 'x', ' ', '+', ' ', '1', '.', '2', '.', '3', 'y'] =
      .error (.malformedNumber 3 8 "1.2.3") ∧
    IsSlice ['2', 'x', '+', '1', '.', '2', '.', '3', 'y'] 3 8 ['1', '.', '2', '.', '3'] := by
  have hread : readTerms .double ['2', 'x', ' ', '+', ' ', '1', '.', '2', '.', '3', 'y'] =
      .error (.malformedNumber 3 8 "1.2.3") := by decide +kernel
  exact ⟨hread, (readTerms_first_fault _ _).2.2 hread⟩

-- An exponent is too large from the power of two on, and white space is not counted.
example :
    readTerms .single "x^ 4294967295".toList = .ok [⟨1, 4294967295⟩] ∧
      readTerms .single "7 - x^ 42949 67296".toList =
        .error (.exponentOverflow 4 14 "4294967296") := by
  decide +kernel

end FloatPolynomial
