import FloatPolynomial.Proofs.Accumulation
import FloatPolynomial.Proofs.Text.Grammar

/-!
# Texts That Meet at a Sign

Where a second text begins with a sign, no piece reaches from the first text into it.  So reading
the two texts together is reading them one after the other: the terms of the second follow those of
the first, and a fault of the second is reported only if the first has none, at a position that
counts the bytes of both.
-/

namespace FloatPolynomial

variable {f : Format}

/-- The error of a text that stands after so many bytes. -/
def ParseError.shift (offset : Nat) : ParseError → ParseError
  | empty => empty
  | malformedNumber start stop token => malformedNumber (start + offset) (stop + offset) token
  | missingExponent position => missingExponent (position + offset)
  | exponentOverflow start stop token => exponentOverflow (start + offset) (stop + offset) token
  | unexpectedChar position character => unexpectedChar (position + offset) character

namespace Piece

theorem readMagnitude_add (start offset : Nat) (p : Piece) :
    p.readMagnitude f (start + offset) =
      (p.readMagnitude f start).mapError (ParseError.shift offset) := by
  unfold readMagnitude
  split
  · rfl
  · split
    · rfl
    · simp only [Except.mapError, ParseError.shift, Nat.add_right_comm]

theorem readPower_add (start offset : Nat) (p : Piece) :
    p.readPower (start + offset) = (p.readPower start).mapError (ParseError.shift offset) := by
  unfold readPower
  split
  · rfl
  · rfl
  · dsimp only
    split
    · simp only [Except.mapError, ParseError.shift, Nat.add_right_comm]
    · split
      · rfl
      · simp only [Except.mapError, ParseError.shift, Nat.add_right_comm]

/-- A piece that begins later has the same term, or its fault later. -/
theorem read_add (start offset : Nat) (p : Piece) :
    p.read f (start + offset) = (p.read f start).mapError (ParseError.shift offset) := by
  rw [read, read, mapError_bind, readMagnitude_add]
  congr 1
  funext magnitude
  rw [mapError_bind, readPower_add]
  congr 1
  funext power
  cases p.rest with
  | nil => rfl
  | cons c others =>
    rw [Nat.add_right_comm]
    rfl

end Piece

/-- The pieces of a text that stands after so many bytes. -/
theorem mapM_read_placed (offset : Nat) (parts : List (List Char)) :
    ((placed offset parts).mapM fun (start, piece) ↦ (Piece.ofText piece).read f start) =
      ((placed 0 parts).mapM fun (start, piece) ↦ (Piece.ofText piece).read f start).mapError
        (ParseError.shift offset) := by
  rw [← mapM_mapError, ← Nat.zero_add offset, placed_add, List.mapM_map]
  simp only [Nat.zero_add]
  congr 1
  funext pair
  exact Piece.read_add pair.1 offset (Piece.ofText pair.2)

/-- Texts that meet at a sign are read one after the other. -/
theorem readTerms_append {front back : List Char} (hfront : strip front ≠ [])
    (hback : ∃ c ∈ (strip back).head?, c = '+' ∨ c = '-') :
    readTerms f (front ++ back) = do
      let terms ← readTerms f front
      let others ← (readTerms f back).mapError (ParseError.shift (byteLength (strip front)))
      return terms ++ others := by
  obtain ⟨c, hc, hsign⟩ := hback
  have hback : strip back ≠ [] := by
    intro hnil
    rw [hnil] at hc
    cases hc
  have hpieces : pieces (strip (front ++ back)) = pieces (strip front) ++ pieces (strip back) := by
    rw [strip_append]
    apply pieces_append
    intro d hd
    obtain rfl : d = c := Option.mem_unique hd hc
    exact Piece.isSign_iff.mpr hsign
  have hne : strip (front ++ back) ≠ [] := by
    rw [strip_append]
    exact List.append_ne_nil_of_left_ne_nil hfront _
  rw [readTerms_of_strip_ne_nil hne, readTerms_of_strip_ne_nil hfront,
    readTerms_of_strip_ne_nil hback, hpieces, placed_append, List.mapM_append, flatten_pieces,
    Nat.zero_add, mapM_read_placed (byteLength (strip front))]

theorem Poly.parse_eq_ok_iff {text : List Char} {p : Poly f} :
    Poly.parse f text = .ok p ↔ ∃ terms, readTerms f text = .ok terms ∧ p = ofTerms terms := by
  rw [Poly.parse, bind_eq_ok_iff]
  apply exists_congr
  intro terms
  apply and_congr_right
  intro _
  constructor
  · intro h
    exact (Except.ok.inj h).symm
  · rintro rfl
    rfl

/-- Where two texts meet at a sign, a fault of the first is reported as it is, one of the second is
reported later by the bytes of the first, and without a fault the terms of both are read.  Then the
polynomial is built from that of the first text and the terms of the second. -/
theorem readTerms_meeting_at_sign {front back : List Char} (hfront : strip front ≠ [])
    (hback : ∃ c ∈ (strip back).head?, c = '+' ∨ c = '-') :
    (∀ e, readTerms f front = .error e → readTerms f (front ++ back) = .error e) ∧
    (∀ terms others, readTerms f front = .ok terms → readTerms f back = .ok others →
      readTerms f (front ++ back) = .ok (terms ++ others)) ∧
    (∀ terms e, readTerms f front = .ok terms → readTerms f back = .error e →
      readTerms f (front ++ back) = .error (e.shift (byteLength (strip front)))) ∧
    ∀ p others, Poly.parse f front = .ok p → readTerms f back = .ok others →
      Poly.parse f (front ++ back) = .ok (Poly.ofTerms (p.terms ++ others)) := by
  have happend := readTerms_append (f := f) hfront hback
  have hboth (terms others : List (Term f)) (hterms : readTerms f front = .ok terms)
      (hothers : readTerms f back = .ok others) :
      readTerms f (front ++ back) = .ok (terms ++ others) := by
    rw [happend, hterms, hothers]
    rfl
  refine ⟨fun e he ↦ ?_, hboth, fun terms e hterms he ↦ ?_, fun p others hp hothers ↦ ?_⟩
  · rw [happend, he]
    rfl
  · rw [happend, hterms, he]
    rfl
  · obtain ⟨terms, hterms, rfl⟩ := Poly.parse_eq_ok_iff.mp hp
    refine Poly.parse_eq_ok_iff.mpr ⟨terms ++ others, hboth terms others hterms hothers, ?_⟩
    exact Poly.ext (canonicalize_append terms others)

/-- A fault behind a caret without an exponent is not seen, and one behind a term is moved. -/
theorem readTerms_meeting_at_sign_fault :
    readTerms .single (['x', '^'] ++ [' ', '-', 'y']) = .error (.missingExponent 2) ∧
    readTerms .single (['x', ' '] ++ [' ', '-', 'y']) = .error (.unexpectedChar 2 'y') := by
  have hback : ∃ c ∈ (strip [' ', '-', 'y']).head?, c = '+' ∨ c = '-' := ⟨'-', rfl, Or.inr rfl⟩
  have hcaret : readTerms .single ['x', '^'] = .error (.missingExponent 2) := by decide +kernel
  have hterm : readTerms .single ['x', ' '] = .ok [⟨1, 1⟩] := by decide +kernel
  have hfault : readTerms .single [' ', '-', 'y'] = .error (.unexpectedChar 1 'y') := by
    decide +kernel
  exact ⟨(readTerms_meeting_at_sign (by decide) hback).1 _ hcaret,
    (readTerms_meeting_at_sign (by decide) hback).2.2.1 _ _ hterm hfault⟩

end FloatPolynomial
