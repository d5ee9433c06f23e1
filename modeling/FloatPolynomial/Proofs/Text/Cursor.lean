import FloatPolynomial.Proofs.Text.Grammar
import FloatPolynomial.Proofs.Text.Slices

/-!
# Reading with a Cursor

A cursor does not know that it stands between characters, and that its stop does: `Cursor.Sees` says
so, together with what lies between them, and each movement keeps it.  Hence a cursor that begins with a piece of a text takes slices only, and reads
the term of the piece, or finds its first fault.
-/

namespace FloatPolynomial

namespace Cursor

variable {text : List Char} {f : Format}

/-- What lies between a cursor and its stop. -/
abbrev Sees (cursor : Cursor text) (remaining : List Char) : Prop :=
  IsSlice text cursor.position cursor.stop remaining

/-- The cursor after some of the text that it sees. -/
def skip (run : List Char) (cursor : Cursor text) : Cursor text :=
  { cursor with position := cursor.position + byteLength run }

@[simp]
theorem skip_nil (cursor : Cursor text) : cursor.skip [] = cursor := rfl

theorem position_lt_skip (cursor : Cursor text) {run : List Char} (hrun : run ≠ []) :
    cursor.position < (cursor.skip run).position :=
  Nat.lt_add_of_pos_right (Nat.pos_of_ne_zero (mt byteLength_eq_zero.mp hrun))

theorem skip_cons (c : Char) (run : List Char) (cursor : Cursor text) :
    cursor.skip (c :: run) = (cursor.advance c).skip run := by
  simp only [skip, advance, byteLength_cons, Nat.add_assoc]

variable {cursor : Cursor text} {remaining run rest : List Char}

theorem Sees.skip (h : cursor.Sees (run ++ rest)) : (cursor.skip run).Sees rest :=
  IsSlice.right h

theorem Sees.advance {c : Char} (h : cursor.Sees (c :: rest)) : (cursor.advance c).Sees rest := by
  have hskip : cursor.Sees ([c] ++ rest) := h
  exact hskip.skip

theorem yields_peek_nil (h : cursor.Sees []) : Yields text cursor.peek (.ok none) := by
  have hslice := Yields.slice cursor.ahead h
  rw [peek]
  exact hslice.bind_ok (.pure none)

theorem yields_peek_cons {c : Char} (h : cursor.Sees (c :: rest)) :
    Yields text cursor.peek (.ok (some ⟨c, h.utf8Size_le⟩)) := by
  have hslice := Yields.slice cursor.ahead h
  rw [peek]
  exact hslice.bind_ok (.pure _)

theorem yields_eat {c : Char} (h : cursor.Sees (c :: rest)) :
    Yields text (cursor.eat c) (.ok (some (cursor.advance c))) := by
  rw [eat]
  refine (yields_peek_cons h).bind_ok ?_
  simp only [if_true]
  exact .pure _

theorem yields_eat_of_ne (h : cursor.Sees remaining) {expected : Char}
    (hne : remaining.head? ≠ some expected) : Yields text (cursor.eat expected) (.ok none) := by
  rw [eat]
  cases remaining with
  | nil => exact (yields_peek_nil h).bind_ok (.pure none)
  | cons c rest =>
    have hc : c ≠ expected := fun heq ↦ hne (congrArg some heq)
    refine (yields_peek_cons h).bind_ok ?_
    simp only [if_neg hc]
    exact .pure none

theorem yields_takeWhile (h : cursor.Sees remaining) (accept : Char → Bool) :
    Yields text (cursor.takeWhile accept) (.ok (cursor.skip (remaining.takeWhile accept))) := by
  induction remaining generalizing cursor with
  | nil =>
    rw [takeWhile]
    exact (yields_peek_nil h).bind_ok (.pure cursor)
  | cons c rest ih =>
    have hpeek := yields_peek_cons h
    rw [takeWhile]
    refine hpeek.bind_ok ?_
    cases hc : accept c with
    | true =>
      simp only [hc, if_true, List.takeWhile_cons, skip_cons]
      exact ih h.advance
    | false =>
      simp only [hc, Bool.false_eq_true, if_false, List.takeWhile_cons, skip_nil]
      exact .pure cursor

theorem yields_takeWhile_run (h : cursor.Sees (run ++ rest)) {accept : Char → Bool}
    (hrun : ∀ c ∈ run, accept c = true) (hstop : ∀ c ∈ rest.head?, accept c = false) :
    Yields text (cursor.takeWhile accept) (.ok (cursor.skip run)) := by
  have htake := yields_takeWhile h accept
  rwa [takeWhile_append_stop hrun hstop] at htake

/-- What a cursor may find, wherever it stands. -/
theorem run_peek_cases (cursor : Cursor text) (before : List Span) :
    (∃ fault, cursor.peek.run.run before = (.error fault, before ++ [cursor.ahead])) ∨
    (cursor.position ≤ cursor.stop ∧
      cursor.peek.run.run before = (.ok none, before ++ [cursor.ahead])) ∨
    ∃ c, cursor.peek.run.run before = (.ok (some c), before ++ [cursor.ahead]) := by
  have hrun := run_slice text cursor.ahead before
  rw [peek]
  cases hslice : sliceOrFault text cursor.ahead with
  | error fault =>
    rw [hslice] at hrun
    exact .inl ⟨fault, run_bind_error hrun⟩
  | ok part =>
    rw [hslice] at hrun
    rw [run_bind_ok hrun]
    obtain ⟨_ | ⟨c, rest⟩, h⟩ := part
    · exact .inr (.inl ⟨h.le, rfl⟩)
    · exact .inr (.inr ⟨⟨c, h.utf8Size_le⟩, rfl⟩)

/-- What one step of the loop does, wherever the cursor stands: there is no slice up to the stop, or
the loop ends here, or it goes on after a character in front of the stop. -/
theorem run_takeWhile_cases (accept : Char → Bool) (cursor : Cursor text) (before : List Span) :
    (∃ fault, (cursor.takeWhile accept).run.run before =
      (.error fault, before ++ [cursor.ahead])) ∨
    (cursor.position ≤ cursor.stop ∧
      (cursor.takeWhile accept).run.run before = (.ok cursor, before ++ [cursor.ahead])) ∨
    ∃ c : Char, cursor.position + c.utf8Size ≤ cursor.stop ∧
      (cursor.takeWhile accept).run.run before =
        ((cursor.advance c).takeWhile accept).run.run (before ++ [cursor.ahead]) := by
  rw [takeWhile]
  obtain ⟨fault, hpeek⟩ | ⟨hle, hpeek⟩ | ⟨c, hpeek⟩ := run_peek_cases cursor before
  · exact .inl ⟨fault, run_bind_error hpeek⟩
  · exact .inr (.inl ⟨hle, run_bind_ok hpeek⟩)
  · rw [run_bind_ok hpeek]
    cases hc : accept c.val with
    | true => exact .inr (.inr ⟨c.val, c.property, by simp only [hc, if_true]⟩)
    | false =>
      have hle : cursor.position ≤ cursor.stop := (Nat.le_add_right ..).trans c.property
      refine .inr (.inl ⟨hle, ?_⟩)
      simp only [hc, Bool.false_eq_true, if_false]
      rfl

/-- The loop ends wherever it begins, after at most one slice for each byte and one more, and where
it gives a cursor, this one stands between the first one and its stop. -/
theorem takeWhile_terminates (accept : Char → Bool) (cursor : Cursor text) (before : List Span) :
    ((cursor.takeWhile accept).run.run before).2.length ≤
        before.length + (cursor.stop - cursor.position) + 1 ∧
      ∀ next, ((cursor.takeWhile accept).run.run before).1 = .ok next →
        cursor.position ≤ next.position ∧ next.position ≤ cursor.stop := by
  induction hleft : cursor.stop - cursor.position using Nat.strongRecOn
    generalizing cursor before with
  | ind left ih =>
    obtain ⟨fault, hrun⟩ | ⟨hle, hrun⟩ | ⟨c, hle, hrun⟩ := run_takeWhile_cases accept cursor before
    · rw [hrun]
      refine ⟨by simp, fun next hnext ↦ ?_⟩
      cases hnext
    · rw [hrun]
      refine ⟨by simp, ?_⟩
      rintro next ⟨⟩
      exact ⟨Nat.le_refl _, hle⟩
    · have hpos := c.utf8Size_pos
      obtain ⟨hlength, hnext⟩ := ih _ (by simp only [advance]; omega) (cursor.advance c)
        (before ++ [cursor.ahead]) rfl
      rw [hrun]
      rw [List.length_append, List.length_singleton] at hlength
      change _ ≤ before.length + 1 + (cursor.stop - (cursor.position + c.utf8Size)) + 1 at hlength
      refine ⟨by omega, fun next hok ↦ ?_⟩
      obtain ⟨hfirst, hlast⟩ := hnext next hok
      exact ⟨(Nat.le_add_right ..).trans hfirst, hlast⟩

variable {f : Format}

theorem yields_scanSign {sign : Option Char} (h : cursor.Sees (sign.toList ++ rest))
    (hsign : ∀ c ∈ sign, isSign c = true)
    (hunsigned : sign = none → ∀ c ∈ rest.head?, isSign c = false) :
    Yields text (cursor.scanSign f)
      (.ok (if sign = some '-' then -1 else 1, cursor.skip sign.toList)) := by
  rw [scanSign]
  cases sign with
  | none =>
    have hne {c : Char} (hc : isSign c = true) : rest.head? ≠ some c := by
      intro hhead
      rw [hunsigned rfl c hhead] at hc
      cases hc
    exact (yields_eat_of_ne h (hne (by decide))).bind_ok
      ((yields_eat_of_ne h (hne (by decide))).bind_ok (.pure _))
  | some c =>
    rcases Piece.isSign_iff.mp (hsign c rfl) with rfl | rfl
    · have hne : ('+' :: rest).head? ≠ some '-' :=
        fun heq ↦ absurd (Option.some.inj heq) (by decide)
      exact (yields_eat_of_ne h hne).bind_ok ((yields_eat h).bind_ok (.pure _))
    · exact (yields_eat h).bind_ok (.pure _)

theorem yields_scanNumber {p : Piece} {start : Nat} (h : cursor.Sees (p.number ++ rest))
    (hstart : cursor.position = start + byteLength p.sign.toList)
    (hnumeric : ∀ c ∈ p.number, Piece.isNumeric c = true)
    (hstop : ∀ c ∈ rest.head?, Piece.isNumeric c = false) (factor : Binary f) :
    Yields text (cursor.scanNumber factor)
      ((p.readMagnitude f start).map fun x ↦ (factor * x, cursor.skip p.number)) := by
  rw [scanNumber, Piece.readMagnitude]
  refine (yields_takeWhile_run h hnumeric hstop).bind_ok ?_
  cases hnumber : p.number with
  | nil =>
    have hnot : ¬cursor.position < (cursor.skip []).position := Nat.lt_irrefl _
    rw [if_neg hnot, List.isEmpty_nil, if_pos rfl]
    simp only [Except.map, Binary.mul_one]
    exact .pure _
  | cons c digits =>
    rw [hnumber] at h
    have hlt : cursor.position < (cursor.skip (c :: digits)).position :=
      cursor.position_lt_skip (List.cons_ne_nil _ _)
    rw [if_pos hlt, List.isEmpty_cons, if_neg Bool.false_ne_true, ← hstart]
    refine (Yields.slice _ h.left).bind_ok ?_
    cases Decimal.ofText? (c :: digits) with
    | none => exact .throw _
    | some d => exact .pure _

/-- The power that digits after a caret stand for. -/
def readExponent (first : Nat) (digits : List Char) : Except ParseError UInt32 :=
  if digits.isEmpty then .error (.missingExponent first)
  else if ofDigits digits < UInt32.size then .ok (UInt32.ofNat (ofDigits digits))
  else .error (.exponentOverflow first (first + byteLength digits) (String.ofList digits))

theorem yields_scanExponent {digits : List Char} (h : cursor.Sees (digits ++ rest))
    (hdigits : ∀ c ∈ digits, c.isDigit = true) (hstop : ∀ c ∈ rest.head?, c.isDigit = false) :
    Yields text cursor.scanExponent
      ((readExponent cursor.position digits).map fun power ↦ (power, cursor.skip digits)) := by
  rw [scanExponent, readExponent]
  refine (yields_takeWhile_run h hdigits hstop).bind_ok ?_
  cases digits with
  | nil =>
    rw [if_pos (by rfl), List.isEmpty_nil, if_pos rfl]
    exact .throw _
  | cons c digits =>
    have hne : (cursor.skip (c :: digits)).position ≠ cursor.position :=
      Nat.ne_of_gt (cursor.position_lt_skip (List.cons_ne_nil _ _))
    rw [if_neg hne, List.isEmpty_cons, if_neg Bool.false_ne_true]
    refine (Yields.slice _ h.left).bind_ok ?_
    split
    · exact .pure _
    · exact .throw _

theorem yields_scanPower {p : Piece} {start : Nat}
    (h : cursor.Sees (p.variablePart.text ++ rest))
    (hstart : cursor.position = start + byteLength (p.sign.toList ++ p.number))
    (hscanned : p.variablePart.Scanned rest) :
    Yields text cursor.scanPower
      ((p.readPower start).map fun power ↦ (power, cursor.skip p.variablePart.text)) := by
  rw [scanPower, Piece.readPower]
  cases hpart : p.variablePart with
  | absent =>
    rw [hpart] at h hscanned
    exact (yields_eat_of_ne h hscanned).bind_ok (.pure _)
  | alone =>
    rw [hpart] at h hscanned
    exact (yields_eat h).bind_ok ((yields_eat_of_ne h.advance hscanned).bind_ok (.pure _))
  | raised digits =>
    rw [hpart] at h hscanned
    refine (yields_eat h).bind_ok ((yields_eat h.advance).bind_ok ?_)
    have hfirst : ((cursor.advance 'x').advance '^').position =
        start + byteLength (p.sign.toList ++ p.number ++ ['x', '^']) := by
      rw [byteLength_append, ← Nat.add_assoc, ← hstart]
      rfl
    have hskip : ((cursor.advance 'x').advance '^').skip digits =
        cursor.skip (VariablePart.raised digits).text := by
      rw [VariablePart.text, skip_cons, skip_cons]
    have hexponent := yields_scanExponent h.advance.advance hscanned.1 hscanned.2
    rw [hfirst, hskip] at hexponent
    exact hexponent

/-- A cursor in front of a piece reads its term, or finds its first fault. -/
theorem yields_scanTerm {piece : List Char} (h : cursor.Sees piece) :
    Yields text (cursor.scanTerm f) ((Piece.ofText piece).read f cursor.position) := by
  have hscanned := Piece.scanned_ofText piece
  have hsees : cursor.Sees (Piece.ofText piece).text := by rwa [Piece.text_ofText]
  -- Only that the parts of the piece reach as far as they can matters from here on.
  generalize Piece.ofText piece = p at hscanned hsees
  rw [Piece.text, Piece.head, List.append_assoc, List.append_assoc] at hsees
  have hunsigned : p.sign = none → ∀ c ∈ (p.number ++ (p.variablePart.text ++ p.rest)).head?,
      isSign c = false := by
    intro hnone
    have hhead := hscanned.unsigned hnone
    rwa [Piece.text, Piece.head, hnone, List.append_assoc] at hhead
  rw [scanTerm, Piece.read]
  refine (yields_scanSign hsees hscanned.sign hunsigned).bind_ok ?_
  generalize hfactor : (if p.sign = some '-' then (-1 : Binary f) else 1) = factor
  refine (yields_scanNumber hsees.skip rfl hscanned.number hscanned.stop factor).bind_map
    fun magnitude ↦ ?_
  have hstart : ((cursor.skip p.sign.toList).skip p.number).position =
      cursor.position + byteLength (p.sign.toList ++ p.number) := by
    rw [byteLength_append, ← Nat.add_assoc]
    rfl
  refine (yields_scanPower hsees.skip.skip hstart hscanned.variablePart).bind_map fun power ↦ ?_
  have hrest := hsees.skip.skip.skip
  cases hp : p.rest with
  | nil =>
    -- The factor is one or minus one, so the product is not rounded.
    have hcoefficient : factor * magnitude =
        if p.sign = some '-' then -magnitude else magnitude := by
      rw [← hfactor]
      split
      · exact Binary.neg_one_mul magnitude
      · exact Binary.one_mul magnitude
    rw [hp] at hrest
    rw [hcoefficient]
    exact (yields_peek_nil hrest).bind_ok (.pure _)
  | cons c others =>
    have hposition : cursor.position + byteLength p.head =
        (((cursor.skip p.sign.toList).skip p.number).skip p.variablePart.text).position := by
      simp only [Piece.head, byteLength_append, skip, Nat.add_assoc]
    rw [hp] at hrest
    rw [hposition]
    exact (yields_peek_cons hrest).bind_ok (.throw _)

end Cursor

end FloatPolynomial
