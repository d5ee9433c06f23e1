import FloatPolynomial.Text.Piece
import FloatPolynomial.Proofs.Results

/-!
# Taking a Piece Apart

`Piece.ofText` scans greedily, so every part of a piece reaches as far as it can.  `Piece.Scanned`
says so of the parts alone, and `ofText_eq_iff` that this, with the text they form, determines
them.
-/

namespace FloatPolynomial

namespace VariablePart

/-- The variable reaches as far as it can in front of a rest. -/
def Scanned : VariablePart → List Char → Prop
  | absent, rest => rest.head? ≠ some 'x'
  | alone, rest => rest.head? ≠ some '^'
  | raised digits, rest =>
    (∀ c ∈ digits, c.isDigit = true) ∧ ∀ c ∈ rest.head?, c.isDigit = false

theorem scanned_split (cs : List Char) : (split cs).1.Scanned (split cs).2 := by
  unfold split
  split
  · exact ⟨fun c hc ↦ List.mem_takeWhile_imp hc, stop_dropWhile _ _⟩
  · rename_i rest hcaret
    intro hhead
    obtain ⟨more, rfl⟩ := List.head?_eq_some_iff.mp hhead
    exact hcaret more rfl
  · rename_i hcaret halone
    intro hhead
    obtain ⟨more, rfl⟩ := List.head?_eq_some_iff.mp hhead
    exact halone more rfl

theorem split_text_append {v : VariablePart} {rest : List Char} (h : v.Scanned rest) :
    split (v.text ++ rest) = (v, rest) := by
  cases v with
  | absent =>
    change split rest = _
    unfold split
    split
    · exact absurd rfl h
    · exact absurd rfl h
    · rfl
  | alone =>
    change split ('x' :: rest) = _
    unfold split
    split
    · rename_i more heq
      obtain rfl := (List.cons.inj heq).2
      exact absurd rfl h
    · rename_i more _ heq
      obtain rfl := (List.cons.inj heq).2
      rfl
    · rename_i halone
      exact absurd rfl (halone rest)
  | raised digits =>
    change (raised ((digits ++ rest).takeWhile (·.isDigit)),
      (digits ++ rest).dropWhile (·.isDigit)) = _
    rw [takeWhile_append_stop h.1 h.2, dropWhile_append_stop h.1 h.2]

end VariablePart

namespace Piece

/-- Every part of a piece reaches as far as it can. -/
structure Scanned (p : Piece) : Prop where
  sign : ∀ c ∈ p.sign, isSign c = true
  unsigned : p.sign = none → ∀ c ∈ p.text.head?, isSign c = false
  number : ∀ c ∈ p.number, isNumeric c = true
  stop : ∀ c ∈ (p.variablePart.text ++ p.rest).head?, isNumeric c = false
  variablePart : p.variablePart.Scanned p.rest

theorem scanned_ofText (cs : List Char) : (ofText cs).Scanned where
  sign c hc := (Option.mem_filter_iff.mp hc).2
  unsigned hnone c hc := by
    rw [text_ofText] at hc
    have hsign : cs.head?.filter isSign = none := hnone
    rw [Option.mem_def.mp hc, Option.filter_some] at hsign
    cases h : isSign c with
    | false => rfl
    | true => rw [h] at hsign; cases hsign
  number c hc := List.mem_takeWhile_imp hc
  stop := by
    have hsplit : (ofText cs).variablePart.text ++ (ofText cs).rest =
        (cs.drop (cs.head?.filter isSign).toList.length).dropWhile isNumeric :=
      VariablePart.text_split _
    rw [hsplit]
    exact stop_dropWhile _ _
  variablePart := VariablePart.scanned_split _

theorem ofText_text {p : Piece} (h : p.Scanned) : ofText p.text = p := by
  have htext : p.text = p.sign.toList ++ (p.number ++ (p.variablePart.text ++ p.rest)) := by
    simp only [text, head, List.append_assoc]
  have hsign : p.text.head?.filter isSign = p.sign := by
    cases hs : p.sign with
    | none =>
      rw [Option.filter_eq_none_iff]
      intro c hc
      rw [h.unsigned hs c hc]
      exact Bool.false_ne_true
    | some c =>
      rw [htext, hs]
      change (some c).filter isSign = some c
      rw [Option.filter_some, h.sign c (by rw [hs]; rfl)]
      rfl
  have hdrop : p.text.drop p.sign.toList.length = p.number ++ (p.variablePart.text ++ p.rest) := by
    rw [htext, List.drop_left]
  simp only [ofText, hsign, hdrop, takeWhile_append_stop h.number h.stop,
    dropWhile_append_stop h.number h.stop, VariablePart.split_text_append h.variablePart]

/-- The parts of a text are those that form it and reach as far as they can. -/
theorem ofText_eq_iff {cs : List Char} {p : Piece} : ofText cs = p ↔ p.text = cs ∧ p.Scanned := by
  constructor
  · rintro rfl
    exact ⟨text_ofText cs, scanned_ofText cs⟩
  · rintro ⟨rfl, h⟩
    exact ofText_text h

end Piece

end FloatPolynomial
