import FloatPolynomial.Text.Piece

/-!
# Cutting a Text at Its Signs

`Cut` says which division of a text into pieces is meant: nothing is lost, no piece is empty, signs
stand only at the beginning of a piece, and every piece but the first has one there.  There is
exactly one such division, and `pieces` computes it.  Hence texts that meet at a sign are cut into
the pieces of both, and each piece stands after as many bytes as the pieces in front of it have.
-/

namespace FloatPolynomial

/-- A division of a text into pieces before each sign that is not its first character. -/
structure Cut (text : List Char) (parts : List (List Char)) : Prop where
  flatten : parts.flatten = text
  nonempty : ∀ part ∈ parts, part ≠ []
  unbroken : ∀ part ∈ parts, ∀ c ∈ part.tail, isSign c = false
  atSigns : ∀ part ∈ parts.tail, part.head?.any isSign = true

theorem cut_nil : Cut [] [] where
  flatten := rfl
  nonempty := List.forall_mem_nil _
  unbroken := List.forall_mem_nil _
  atSigns := List.forall_mem_nil _

theorem cut_singleton {part : List Char} (hne : part ≠ [])
    (hunbroken : ∀ c ∈ part.tail, isSign c = false) : Cut part [part] where
  flatten := List.flatten_singleton
  nonempty := List.forall_mem_singleton.mpr hne
  unbroken := List.forall_mem_singleton.mpr hunbroken
  atSigns := List.forall_mem_nil _

/-- One more character in front of a text belongs to its first piece, unless a sign begins there. -/
theorem cut_attach {text : List Char} {parts : List (List Char)} (h : Cut text parts) (c : Char) :
    Cut (c :: text) (attach c parts) := by
  have hflatten : (attach c parts).flatten = c :: text := by
    rw [flatten_attach, h.flatten]
  cases parts with
  | nil => exact ⟨hflatten, by simp [attach], by simp [attach], by simp [attach]⟩
  | cons first others =>
    obtain ⟨hfirst, hothers⟩ := List.forall_mem_cons.mp h.nonempty
    obtain ⟨htail, htails⟩ := List.forall_mem_cons.mp h.unbroken
    rw [attach] at hflatten ⊢
    split
    · rename_i hsign
      rw [if_pos hsign] at hflatten
      refine ⟨hflatten, ?_, ?_, ?_⟩
      · exact List.forall_mem_cons.mpr ⟨List.cons_ne_nil _ _, h.nonempty⟩
      · exact List.forall_mem_cons.mpr ⟨by simp, h.unbroken⟩
      · exact List.forall_mem_cons.mpr ⟨hsign, h.atSigns⟩
    · rename_i hsign
      rw [if_neg hsign] at hflatten
      refine ⟨hflatten, ?_, ?_, h.atSigns⟩
      · exact List.forall_mem_cons.mpr ⟨List.cons_ne_nil _ _, hothers⟩
      · refine List.forall_mem_cons.mpr ⟨?_, htails⟩
        cases first with
        | nil => exact absurd rfl hfirst
        | cons d ds => exact List.forall_mem_cons.mpr ⟨eq_false_of_ne_true hsign, htail⟩

theorem cut_pieces (text : List Char) : Cut text (pieces text) := by
  induction text with
  | nil => exact cut_nil
  | cons c rest ih => exact cut_attach ih c

/-- What is left of a cut after a piece of one character. -/
theorem Cut.of_singleton {c : Char} {text : List Char} {others : List (List Char)}
    (h : Cut (c :: text) ([c] :: others)) : Cut text others where
  flatten := (List.cons.inj h.flatten).2
  nonempty := (List.forall_mem_cons.mp h.nonempty).2
  unbroken := (List.forall_mem_cons.mp h.unbroken).2
  atSigns := fun part hpart ↦ h.atSigns part (List.mem_of_mem_tail hpart)

/-- What is left of a cut after the first character of a longer piece. -/
theorem Cut.of_cons {c d : Char} {text first : List Char} {others : List (List Char)}
    (h : Cut (c :: text) ((c :: d :: first) :: others)) : Cut text ((d :: first) :: others) where
  flatten := (List.cons.inj h.flatten).2
  nonempty := List.forall_mem_cons.mpr
    ⟨List.cons_ne_nil _ _, (List.forall_mem_cons.mp h.nonempty).2⟩
  unbroken := by
    obtain ⟨htail, htails⟩ := List.forall_mem_cons.mp h.unbroken
    exact List.forall_mem_cons.mpr ⟨(List.forall_mem_cons.mp htail).2, htails⟩
  atSigns := h.atSigns

/-- There is only one cut. -/
theorem Cut.eq_pieces {text : List Char} {parts : List (List Char)} (h : Cut text parts) :
    parts = pieces text := by
  induction text generalizing parts with
  | nil =>
    apply List.eq_nil_iff_forall_not_mem.mpr
    intro part hpart
    exact h.nonempty part hpart (List.flatten_eq_nil_iff.mp h.flatten part hpart)
  | cons c rest ih =>
    rw [pieces, List.foldr_cons, ← pieces]
    rcases parts with _ | ⟨_ | ⟨d, _ | ⟨e, first⟩⟩, others⟩
    · cases h.flatten
    · exact absurd rfl (h.nonempty [] List.mem_cons_self)
    · obtain rfl : d = c := (List.cons.inj h.flatten).1
      rw [← ih h.of_singleton]
      cases others with
      | nil => rfl
      | cons first more => rw [attach, if_pos (h.atSigns first List.mem_cons_self)]
    · obtain rfl : d = c := (List.cons.inj h.flatten).1
      have he : (e :: first).head?.any isSign = false :=
        h.unbroken (d :: e :: first) List.mem_cons_self e List.mem_cons_self
      rw [← ih h.of_cons, attach, if_neg (ne_true_of_eq_false he)]

theorem Cut.text_ne_nil {text : List Char} {parts : List (List Char)} (h : Cut text parts)
    (hne : parts ≠ []) : text ≠ [] := by
  rintro rfl
  exact hne h.eq_pieces

theorem cut_iff {text : List Char} {parts : List (List Char)} :
    Cut text parts ↔ parts = pieces text := by
  constructor
  · exact Cut.eq_pieces
  · rintro rfl
    exact cut_pieces text

/-- What follows a piece begins with a sign. -/
theorem Cut.isSign_head?_of_append {text part : List Char} {before after : List (List Char)}
    (h : Cut text (before ++ part :: after)) : ∀ c ∈ after.flatten.head?, isSign c = true := by
  intro c hc
  cases after with
  | nil => cases hc
  | cons next others =>
    have hnext : next ≠ [] := h.nonempty next (by simp)
    obtain ⟨d, rest, rfl⟩ := List.exists_cons_of_ne_nil hnext
    obtain rfl : d = c := Option.some.inj hc
    apply h.atSigns (d :: rest)
    cases before <;> simp

/-- Cuts are joined at a sign. -/
theorem Cut.append {front back : List Char} {before after : List (List Char)}
    (hfront : Cut front before) (hback : Cut back after)
    (hsign : ∀ c ∈ back.head?, isSign c = true) : Cut (front ++ back) (before ++ after) where
  flatten := by rw [List.flatten_append, hfront.flatten, hback.flatten]
  nonempty := List.forall_mem_append.mpr ⟨hfront.nonempty, hback.nonempty⟩
  unbroken := List.forall_mem_append.mpr ⟨hfront.unbroken, hback.unbroken⟩
  atSigns := by
    have hafter : ∀ part ∈ after, part.head?.any isSign = true := by
      intro part hpart
      cases after with
      | nil => cases hpart
      | cons first others =>
        rcases List.mem_cons.mp hpart with rfl | hothers
        · obtain ⟨c, rest, rfl⟩ := List.exists_cons_of_ne_nil (hback.nonempty part hpart)
          exact hsign c (by rw [← hback.flatten]; rfl)
        · exact hback.atSigns part hothers
    cases before with
    | nil => exact fun part hpart ↦ hafter part (List.mem_of_mem_tail hpart)
    | cons first others => exact List.forall_mem_append.mpr ⟨hfront.atSigns, hafter⟩

theorem pieces_append {front back : List Char} (hsign : ∀ c ∈ back.head?, isSign c = true) :
    pieces (front ++ back) = pieces front ++ pieces back :=
  ((cut_pieces front).append (cut_pieces back) hsign).eq_pieces.symm

theorem map_snd_placed (start : Nat) (parts : List (List Char)) :
    (placed start parts).map Prod.snd = parts := by
  induction parts generalizing start with
  | nil => rfl
  | cons part others ih => rw [placed, List.map_cons, ih]

theorem placed_append (start : Nat) (front back : List (List Char)) :
    placed start (front ++ back) =
      placed start front ++ placed (start + byteLength front.flatten) back := by
  induction front generalizing start with
  | nil => rfl
  | cons part others ih =>
    rw [List.cons_append, placed, placed, ih, List.flatten_cons, byteLength_append, Nat.add_assoc,
      List.cons_append]

theorem placed_add (start offset : Nat) (parts : List (List Char)) :
    placed (start + offset) parts = (placed start parts).map fun (s, part) ↦ (s + offset, part) := by
  induction parts generalizing start with
  | nil => rfl
  | cons part others ih => rw [placed, placed, List.map_cons, Nat.add_right_comm, ih]

/-- A piece begins after the pieces in front of it. -/
theorem eq_of_placed_eq {start first : Nat} {parts : List (List Char)} {part : List Char}
    {before after : List (Nat × List Char)}
    (h : placed start parts = before ++ (first, part) :: after) :
    parts = before.map Prod.snd ++ part :: after.map Prod.snd ∧
      first = start + byteLength (before.map Prod.snd).flatten := by
  have hparts : parts = before.map Prod.snd ++ part :: after.map Prod.snd := by
    rw [← map_snd_placed start parts, h, List.map_append, List.map_cons]
  rw [hparts, placed_append] at h
  have hlength : (placed start (before.map Prod.snd)).length = before.length := by
    rw [← List.length_map Prod.snd, map_snd_placed, List.length_map]
  have htails := (List.append_inj h hlength).2
  exact ⟨hparts, (congrArg Prod.fst (List.cons.inj htails).1).symm⟩

end FloatPolynomial
