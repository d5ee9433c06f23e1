import FloatPolynomial.Proofs.Text.Cursor
import FloatPolynomial.Proofs.Text.Faults

/-!
# Spans between Signs

The spans of the terms are computed from the positions of the signs alone.  They are the spans of
the pieces into which the text is cut, so a cursor on each of them takes slices only, and the terms
that it reads are those of the text.
-/

namespace FloatPolynomial

variable {text : List Char} {f : Format}

theorem signPositions_cons (start : Nat) (c : Char) (rest : List Char) :
    signPositions start (c :: rest) =
      if isSign c then start :: signPositions (start + c.utf8Size) rest
      else signPositions (start + c.utf8Size) rest := by
  rw [signPositions, charIndices, List.filter_cons]
  cases isSign c with
  | true => rfl
  | false => rfl

/-- The first bytes of pieces. -/
def placedStarts (start : Nat) (parts : List (List Char)) : List Nat :=
  (placed start parts).map Prod.fst

theorem placedStarts_cons (start : Nat) (part : List Char) (others : List (List Char)) :
    placedStarts start (part :: others) = start :: placedStarts (start + byteLength part) others :=
  rfl

/-- The first piece begins with the first character of the text. -/
theorem exists_pieces_cons (c : Char) (rest : List Char) :
    ∃ first others, pieces (c :: rest) = (c :: first) :: others := by
  have hcut := cut_pieces (c :: rest)
  cases hpieces : pieces (c :: rest) with
  | nil =>
    have hflatten := hcut.flatten
    rw [hpieces] at hflatten
    cases hflatten
  | cons part others =>
    rw [hpieces] at hcut
    obtain ⟨d, first, rfl⟩ := List.exists_cons_of_ne_nil (hcut.nonempty part List.mem_cons_self)
    obtain rfl : d = c := (List.cons.inj hcut.flatten).1
    exact ⟨first, others, rfl⟩

/-- Signs stand at the first bytes of the pieces, except perhaps of the first one, and nowhere
else. -/
theorem signPositions_eq (start : Nat) (text : List Char) :
    signPositions start text =
      if text.head?.any isSign then placedStarts start (pieces text)
      else (placedStarts start (pieces text)).tail := by
  induction text generalizing start with
  | nil => rfl
  | cons c rest ih =>
    have htail : signPositions (start + c.utf8Size) rest =
        (placedStarts start (pieces (c :: rest))).tail := by
      have hattach : pieces (c :: rest) = attach c (pieces rest) := rfl
      rw [ih, hattach]
      cases rest with
      | nil => rfl
      | cons d rest =>
        obtain ⟨first, others, hpieces⟩ := exists_pieces_cons d rest
        rw [hpieces, attach, List.head?_cons, Option.any_some, List.head?_cons, Option.any_some]
        cases isSign d with
        | true => rfl
        | false =>
          simp only [Bool.false_eq_true, if_false, placedStarts_cons, List.tail_cons,
            byteLength_cons, Nat.add_assoc]
    obtain ⟨first, others, hpieces⟩ := exists_pieces_cons c rest
    rw [signPositions_cons, htail, List.head?_cons, Option.any_some, hpieces, placedStarts_cons,
      List.tail_cons]

theorem spanStarts_eq (h : text ≠ []) : spanStarts text = placedStarts 0 (pieces text) := by
  obtain ⟨c, rest, rfl⟩ := List.exists_cons_of_ne_nil h
  obtain ⟨first, others, hpieces⟩ := exists_pieces_cons c rest
  rw [spanStarts, signPositions_eq, hpieces, placedStarts_cons, List.head?_cons, Option.any_some]
  cases isSign c with
  | true => rfl
  | false =>
    -- Later pieces do not begin at the first byte.
    have hhead : (placedStarts (0 + byteLength (c :: first)) others).head? ≠ some 0 := by
      have hpos := c.utf8Size_pos
      cases others with
      | nil =>
        intro heq
        cases heq
      | cons part others =>
        rw [placedStarts_cons, List.head?_cons, byteLength_cons, Ne, Option.some.injEq]
        omega
    simp only [Bool.false_eq_true, if_false, List.tail_cons, if_neg hhead]

/-- Each piece ends where the next one begins, and the last one with the text. -/
theorem zipWith_placedStarts (start : Nat) (parts : List (List Char)) :
    List.zipWith Span.mk (placedStarts start parts)
        ((placedStarts start parts).tail ++ [start + byteLength parts.flatten]) =
      (placed start parts).map fun item ↦ ⟨item.1, item.1 + byteLength item.2⟩ := by
  induction parts generalizing start with
  | nil => rfl
  | cons part others ih =>
    have hlength : start + byteLength (part :: others).flatten =
        start + byteLength part + byteLength others.flatten := by
      rw [List.flatten_cons, byteLength_append, Nat.add_assoc]
    rw [placed, List.map_cons, ← ih, placedStarts_cons, List.tail_cons, hlength]
    cases others with
    | nil => rfl
    | cons next others => rfl

theorem spans_eq (h : text ≠ []) :
    spans text = (placed 0 (pieces text)).map fun item ↦ ⟨item.1, item.1 + byteLength item.2⟩ := by
  have hzip := zipWith_placedStarts 0 (pieces text)
  rwa [flatten_pieces, Nat.zero_add, ← spanStarts_eq h] at hzip

/-- Spans that are not empty and follow each other from one byte to another. -/
def Consecutive (start : Nat) : List Span → Nat → Prop
  | [], stop => start = stop
  | span :: others, stop =>
    span.start = start ∧ span.start < span.stop ∧ Consecutive span.stop others stop

theorem consecutive_placed (start : Nat) {parts : List (List Char)}
    (h : ∀ part ∈ parts, part ≠ []) :
    Consecutive start
      ((placed start parts).map fun item ↦ ⟨item.1, item.1 + byteLength item.2⟩)
      (start + byteLength parts.flatten) := by
  induction parts generalizing start with
  | nil => rfl
  | cons part others ih =>
    obtain ⟨hpart, hothers⟩ := List.forall_mem_cons.mp h
    rw [List.flatten_cons, byteLength_append, ← Nat.add_assoc]
    refine ⟨rfl, ?_, ih _ hothers⟩
    exact Nat.lt_add_of_pos_right (Nat.pos_of_ne_zero (mt byteLength_eq_zero.mp hpart))

theorem isSlice_of_mem_placed {parts : List (List Char)} {item : Nat × List Char}
    (h : item ∈ placed 0 parts) :
    IsSlice parts.flatten item.1 (item.1 + byteLength item.2) item.2 := by
  obtain ⟨before, after, hplaced⟩ := List.append_of_mem h
  obtain ⟨hparts, hfirst⟩ := eq_of_placed_eq hplaced
  refine ⟨(before.map Prod.snd).flatten, (after.map Prod.snd).flatten, ?_, ?_, ?_⟩
  · rw [hparts, List.flatten_append, List.flatten_cons, List.append_assoc]
  · rw [hfirst, Nat.zero_add]
  · rw [byteLength_append, hfirst, Nat.zero_add]

/-- Between the bytes of the spans lie the pieces of the text. -/
theorem forall₂_isSlice_spans (h : text ≠ []) :
    List.Forall₂ (fun span part ↦ IsSlice text span.start span.stop part) (spans text)
      (pieces text) := by
  have hslices : ∀ item ∈ placed 0 (pieces text),
      IsSlice text item.1 (item.1 + byteLength item.2) item.2 := by
    intro item hitem
    have hslice := isSlice_of_mem_placed hitem
    rwa [flatten_pieces] at hslice
  have hparts := map_snd_placed 0 (pieces text)
  rw [spans_eq h, List.forall₂_map_left_iff]
  nth_rewrite 2 [← hparts]
  rw [List.forall₂_map_right_iff]
  exact List.forall₂_same.mpr hslices

/-- Reading span by span gives the terms of the text, or its first fault, and takes slices only. -/
theorem yields_scanTerms (f : Format) (text : List Char) :
    Yields (strip text) (scanTerms f text) (readTerms f text) := by
  rw [scanTerms, readTerms]
  by_cases h : strip text = []
  · rw [h]
    exact .throw _
  · have hisEmpty : (strip text).isEmpty = false := by rwa [List.isEmpty_eq_false_iff]
    rw [hisEmpty, if_neg Bool.false_ne_true, if_neg Bool.false_ne_true, spans_eq h, List.mapM_map]
    apply Yields.mapM
    intro item hitem
    have hslice := isSlice_of_mem_placed hitem
    rw [flatten_pieces] at hslice
    exact Cursor.yields_scanTerm hslice

/-- Whatever the text, reading it takes slices of the text without its white space only: every pair
of bytes is in order, in the text and between characters.  So reading never fails for want of a
slice, and gives what `readTerms` gives.

The spans of the terms are not empty and follow each other from the first byte to the last one, and
what they hold is the text cut at its signs.  The loop that skips characters ends wherever it
begins, and what it gives has not passed the stop; it gives a cursor if there is a slice up to the
stop. -/
theorem scanTerms_slices (f : Format) (text : List Char) :
    (∃ taken, (scanTerms f text).run.run [] = ((readTerms f text).mapError .refused, taken) ∧
      ∀ span ∈ taken, span.start ≤ span.stop ∧ span.stop ≤ byteLength (strip text) ∧
        String.Pos.Raw.IsValid (String.ofList (strip text)) ⟨span.start⟩ ∧
        String.Pos.Raw.IsValid (String.ofList (strip text)) ⟨span.stop⟩) ∧
    (strip text ≠ [] →
      Consecutive 0 (spans (strip text)) (byteLength (strip text)) ∧
      ∃ parts, Cut (strip text) parts ∧
        List.Forall₂ (fun span part ↦ IsSlice (strip text) span.start span.stop part)
          (spans (strip text)) parts) ∧
    ∀ (accept : Char → Bool) (cursor : Cursor (strip text)) (before : List Span),
      ((cursor.takeWhile accept).run.run before).2.length ≤
        before.length + (cursor.stop - cursor.position) + 1 ∧
      (∀ next, ((cursor.takeWhile accept).run.run before).1 = .ok next →
        cursor.position ≤ next.position ∧ next.position ≤ cursor.stop) ∧
      ((∃ remaining, cursor.Sees remaining) →
        ∃ next, ((cursor.takeWhile accept).run.run before).1 = .ok next) := by
  refine ⟨?_, fun h ↦ ⟨?_, pieces (strip text), cut_pieces _, forall₂_isSlice_spans h⟩,
    fun accept cursor before ↦ ?_⟩
  · obtain ⟨taken, hslices, hrun⟩ := yields_scanTerms f text
    refine ⟨taken, hrun [], fun span hspan ↦ ?_⟩
    obtain ⟨part, hslice⟩ := hslices span hspan
    obtain ⟨hle, hstart, hstop⟩ := exists_isSlice_iff.mp ⟨part, hslice⟩
    exact ⟨hle, hslice.stop_le, hstart, hstop⟩
  · have hconsecutive := consecutive_placed 0 (cut_pieces (strip text)).nonempty
    rwa [flatten_pieces, Nat.zero_add, ← spans_eq h] at hconsecutive
  · obtain ⟨hlength, hnext⟩ := Cursor.takeWhile_terminates accept cursor before
    refine ⟨hlength, hnext, ?_⟩
    rintro ⟨remaining, h⟩
    obtain ⟨taken, -, hrun⟩ := Cursor.yields_takeWhile h accept
    exact ⟨_, congrArg Prod.fst (hrun before)⟩

/-- A text whose last character has two bytes is refused there. -/
theorem scanTerms_slices_two_bytes :
    strip "1 + ξ".toList ≠ [] ∧
      (∃ taken, (scanTerms .single "1 + ξ".toList).run.run [] =
        (.error (.refused (.unexpectedChar 2 'ξ')), taken)) ∧
      Consecutive 0 (spans (strip "1 + ξ".toList)) 4 ∧
      ∃ next,
        (((⟨1, 4⟩ : Cursor (strip "1 + ξ".toList)).takeWhile isSign).run.run []).1 = .ok next := by
  have hstripped : strip "1 + ξ".toList ≠ [] := by decide +kernel
  have hread : readTerms .single "1 + ξ".toList = .error (.unexpectedChar 2 'ξ') := by
    decide +kernel
  have hsees : (⟨1, 4⟩ : Cursor (strip "1 + ξ".toList)).Sees ['+', 'ξ'] :=
    ⟨['1'], [], by decide +kernel, by decide, by decide⟩
  obtain ⟨⟨taken, hrun, -⟩, hspans, hloop⟩ := scanTerms_slices .single "1 + ξ".toList
  rw [hread] at hrun
  exact ⟨hstripped, ⟨taken, hrun⟩, (hspans hstripped).1, (hloop isSign ⟨1, 4⟩ []).2.2 ⟨_, hsees⟩⟩

end FloatPolynomial
