import FloatPolynomial.Text.Piece

/-!
# Slices of a Text

A slice of a text is named by its first byte and the byte after its last one.  There is none if the
bytes are in the wrong order, lie outside the text or stand inside a character.
-/

namespace FloatPolynomial

/-- A part of a text lies between two of its bytes. -/
def IsSlice (text : List Char) (start stop : Nat) (part : List Char) : Prop :=
  ∃ front back, text = front ++ part ++ back ∧ start = byteLength front ∧
    stop = byteLength (front ++ part)

/-- A byte of a text and the one at which to stop. -/
structure Span where
  start : Nat
  stop : Nat
  deriving DecidableEq

/-- The first bytes of a text and what follows them, unless a character stands across. -/
def splitBytes : Nat → List Char → Option (List Char × List Char)
  | 0, text => some ([], text)
  | _ + 1, [] => none
  | n + 1, c :: rest =>
    if c.utf8Size ≤ n + 1 then
      (splitBytes (n + 1 - c.utf8Size) rest).map fun split ↦ (c :: split.1, split.2)
    else none

/-- What lies between two bytes of a text. -/
def slice? (text : List Char) (span : Span) : Option (List Char) :=
  if span.start ≤ span.stop then
    (splitBytes span.start text).bind fun split ↦
      (splitBytes (span.stop - span.start) split.2).map Prod.fst
  else none

theorem byteLength_eq_zero {text : List Char} : byteLength text = 0 ↔ text = [] := by
  cases text with
  | nil => simp
  | cons c rest =>
    have hpos := c.utf8Size_pos
    simp only [byteLength_cons, reduceCtorEq, iff_false]
    omega

theorem splitBytes_append (front back : List Char) :
    splitBytes (byteLength front) (front ++ back) = some (front, back) := by
  induction front with
  | nil => rw [byteLength_nil, List.nil_append, splitBytes]
  | cons c rest ih =>
    obtain ⟨n, hn⟩ : ∃ n, byteLength (c :: rest) = n + 1 :=
      Nat.exists_eq_succ_of_ne_zero (mt byteLength_eq_zero.mp (List.cons_ne_nil c rest))
    have hrest : n + 1 - c.utf8Size = byteLength rest := by
      rw [← hn, byteLength_cons, Nat.add_sub_cancel_left]
    have hle : c.utf8Size ≤ n + 1 := by
      rw [← hn, byteLength_cons]
      exact Nat.le_add_right ..
    rw [hn, List.cons_append, splitBytes, if_pos hle, hrest, ih, Option.map_some]

theorem eq_of_splitBytes {n : Nat} {text front back : List Char}
    (h : splitBytes n text = some (front, back)) : text = front ++ back ∧ n = byteLength front := by
  fun_induction splitBytes n text generalizing front with
  | case1 text =>
    cases h
    exact ⟨rfl, rfl⟩
  | case2 n => cases h
  | case3 n c rest hle ih =>
    obtain ⟨⟨front, back⟩, hsplit, hcons⟩ := Option.map_eq_some_iff.mp h
    cases hcons
    obtain ⟨rfl, hn⟩ := ih hsplit
    refine ⟨rfl, ?_⟩
    rw [byteLength_cons, ← hn, Nat.add_sub_cancel' hle]
  | case4 n c rest hlt => cases h

theorem slice?_eq_some_iff {text part : List Char} {span : Span} :
    slice? text span = some part ↔ IsSlice text span.start span.stop part := by
  rw [slice?]
  constructor
  · intro h
    split at h
    · rename_i hle
      obtain ⟨⟨front, rest⟩, hfront, hpart⟩ := Option.bind_eq_some_iff.mp h
      obtain ⟨⟨part, back⟩, hback, rfl⟩ := Option.map_eq_some_iff.mp hpart
      obtain ⟨rfl, hstart⟩ := eq_of_splitBytes hfront
      obtain ⟨rfl, hstop⟩ := eq_of_splitBytes hback
      refine ⟨front, back, (List.append_assoc ..).symm, hstart, ?_⟩
      rw [byteLength_append, ← hstart, ← hstop, Nat.add_sub_cancel' hle]
    · cases h
  · rintro ⟨front, back, rfl, hstart, hstop⟩
    rw [byteLength_append, ← hstart] at hstop
    have hle : span.start ≤ span.stop := by
      rw [hstop]
      exact Nat.le_add_right ..
    have hlength : span.stop - span.start = byteLength part := by
      rw [hstop, Nat.add_sub_cancel_left]
    rw [if_pos hle, hstart, List.append_assoc, splitBytes_append, Option.bind_some, ← hstart,
      hlength, splitBytes_append, Option.map_some]

namespace IsSlice

variable {text part rest : List Char} {start stop : Nat}

theorem stop_eq (h : IsSlice text start stop part) : stop = start + byteLength part := by
  obtain ⟨front, back, -, rfl, rfl⟩ := h
  exact byteLength_append ..

theorem le (h : IsSlice text start stop part) : start ≤ stop := by
  rw [h.stop_eq]
  exact Nat.le_add_right ..

theorem utf8Size_le {c : Char} (h : IsSlice text start stop (c :: rest)) :
    start + c.utf8Size ≤ stop := by
  rw [h.stop_eq, byteLength_cons, ← Nat.add_assoc]
  exact Nat.le_add_right ..

end IsSlice

end FloatPolynomial
