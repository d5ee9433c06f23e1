import FloatPolynomial.Text.Reader

/-!
# Scans That Take Slices Only

There is a slice between two bytes of a text if they are in order and stand between characters, and
only then: `exists_isSlice_iff`.  `Yields` says of a scan that every slice exists that it takes, and
how it ends.
-/

namespace FloatPolynomial

/-- A character of a text begins at a byte, or the text ends there. -/
theorem isValid_ofList_iff {text : List Char} {n : Nat} :
    String.Pos.Raw.IsValid (String.ofList text) ⟨n⟩ ↔
      ∃ front back, text = front ++ back ∧ n = byteLength front := by
  rw [String.Pos.Raw.isValid_iff_exists_append]
  constructor
  · rintro ⟨front, back, htext, hn⟩
    refine ⟨front.toList, back.toList, ?_, ?_⟩
    · rw [← String.toList_append, ← htext, String.toList_ofList]
    · rw [← utf8ByteSize_ofList, String.ofList_toList]
      exact congrArg String.Pos.Raw.byteIdx hn
  · rintro ⟨front, back, rfl, rfl⟩
    refine ⟨String.ofList front, String.ofList back, String.ofList_append, ?_⟩
    rw [← utf8ByteSize_ofList]
    rfl

/-- There is a slice between two bytes if and only if they are in order and neither of them is
inside a character or outside the text. -/
theorem exists_isSlice_iff {text : List Char} {start stop : Nat} :
    (∃ part, IsSlice text start stop part) ↔ start ≤ stop ∧
      String.Pos.Raw.IsValid (String.ofList text) ⟨start⟩ ∧
      String.Pos.Raw.IsValid (String.ofList text) ⟨stop⟩ := by
  simp only [isValid_ofList_iff]
  constructor
  · rintro ⟨part, front, back, rfl, rfl, rfl⟩
    refine ⟨?_, ⟨front, part ++ back, List.append_assoc .., rfl⟩, front ++ part, back, rfl, rfl⟩
    rw [byteLength_append]
    exact Nat.le_add_right ..
  · rintro ⟨hle, ⟨front, rest, rfl, rfl⟩, longer, back, heq, rfl⟩
    rcases List.append_eq_append_iff.mp heq with ⟨part, rfl, rfl⟩ | ⟨part, rfl, rfl⟩
    · exact ⟨part, front, back, (List.append_assoc ..).symm, rfl, rfl⟩
    · -- The bytes are in order, so they are the same.
      have hpart : part = [] := by
        rw [byteLength_append] at hle
        exact byteLength_eq_zero.mp (by omega)
      subst hpart
      exact ⟨[], longer, rest, by simp, by simp, by simp⟩

namespace IsSlice

variable {text part run rest : List Char} {start stop : Nat}

theorem stop_le (h : IsSlice text start stop part) : stop ≤ byteLength text := by
  obtain ⟨front, back, rfl, -, rfl⟩ := h
  rw [byteLength_append _ back]
  exact Nat.le_add_right ..

/-- A slice is the only one between its bytes. -/
theorem unique (h : IsSlice text start stop part) {other : List Char}
    (hother : IsSlice text start stop other) : part = other := by
  have hsome : slice? text ⟨start, stop⟩ = some part := slice?_eq_some_iff.mpr h
  rw [slice?_eq_some_iff.mpr hother] at hsome
  exact (Option.some.inj hsome).symm

theorem left (h : IsSlice text start stop (run ++ rest)) :
    IsSlice text start (start + byteLength run) run := by
  obtain ⟨front, back, rfl, rfl, -⟩ := h
  exact ⟨front, rest ++ back, by simp only [List.append_assoc], rfl, (byteLength_append ..).symm⟩

theorem right (h : IsSlice text start stop (run ++ rest)) :
    IsSlice text (start + byteLength run) stop rest := by
  obtain ⟨front, back, rfl, rfl, rfl⟩ := h
  refine ⟨front ++ run, back, by simp only [List.append_assoc], (byteLength_append ..).symm, ?_⟩
  rw [List.append_assoc]

end IsSlice

variable {text : List Char} {α β γ : Type}

theorem run_slice (text : List Char) (span : Span) (before : List Span) :
    (slice text span).run.run before = (sliceOrFault text span, before ++ [span]) :=
  rfl

theorem sliceOrFault_eq_ok {span : Span} {part : List Char}
    (h : IsSlice text span.start span.stop part) : sliceOrFault text span = .ok ⟨part, h⟩ := by
  rw [sliceOrFault]
  split
  · rename_i other hother
    exact congrArg Except.ok (Subtype.ext ((slice?_eq_some_iff.mp hother).unique h))
  · rename_i hnone
    rw [slice?_eq_some_iff.mpr h] at hnone
    cases hnone

section Bind

variable {scan : Scan α} {next : α → Scan β} {before after : List Span}

theorem run_bind_ok {a : α} (h : scan.run.run before = (.ok a, after)) :
    (scan >>= next).run.run before = (next a).run.run after := by
  rw [ExceptT.run_bind, StateT.run_bind, h]
  rfl

theorem run_bind_error {fault : ScanFault} (h : scan.run.run before = (.error fault, after)) :
    (scan >>= next).run.run before = (.error fault, after) := by
  rw [ExceptT.run_bind, StateT.run_bind, h]
  rfl

end Bind

/-- A scan has an outcome, whatever slices were taken before, and all slices that it takes exist.
There is no outcome for a slice that does not. -/
def Yields (text : List Char) (scan : Scan α) (outcome : Except ParseError α) : Prop :=
  ∃ taken, (∀ span ∈ taken, ∃ part, IsSlice text span.start span.stop part) ∧
    ∀ before, scan.run.run before = (outcome.mapError .refused, before ++ taken)

namespace Yields

variable {scan : Scan α} {next : α → Scan β} {a : α}

theorem pure (a : α) : Yields text (pure a) (.ok a) :=
  ⟨[], List.forall_mem_nil _, fun _ ↦ by rw [List.append_nil]; rfl⟩

theorem throw (e : ParseError) : Yields text (throw (.refused e) : Scan α) (.error e) :=
  ⟨[], List.forall_mem_nil _, fun _ ↦ by rw [List.append_nil]; rfl⟩

theorem slice (span : Span) {part : List Char} (h : IsSlice text span.start span.stop part) :
    Yields text (slice text span) (.ok ⟨part, h⟩) := by
  refine ⟨[span], List.forall_mem_singleton.mpr ⟨part, h⟩, fun before ↦ ?_⟩
  rw [run_slice, sliceOrFault_eq_ok h]
  rfl

theorem bind_ok {outcome : Except ParseError β} (h : Yields text scan (.ok a))
    (hnext : Yields text (next a) outcome) : Yields text (scan >>= next) outcome := by
  obtain ⟨taken, hslices, hrun⟩ := h
  obtain ⟨more, hmore, hrunNext⟩ := hnext
  refine ⟨taken ++ more, List.forall_mem_append.mpr ⟨hslices, hmore⟩, fun before ↦ ?_⟩
  rw [run_bind_ok (hrun before), hrunNext, List.append_assoc]

theorem bind_error {e : ParseError} (h : Yields text scan (.error e)) :
    Yields text (scan >>= next) (.error e) := by
  obtain ⟨taken, hslices, hrun⟩ := h
  exact ⟨taken, hslices, fun before ↦ run_bind_error (hrun before)⟩

/-- A scan goes on as reading does, with a value in which it keeps more than what is read. -/
theorem bind_map {first : Except ParseError γ} {second : γ → Except ParseError β} {keep : γ → α}
    (h : Yields text scan (first.map keep))
    (hnext : ∀ c, Yields text (next (keep c)) (second c)) :
    Yields text (scan >>= next) (first >>= second) := by
  cases first with
  | error e => exact h.bind_error
  | ok c => exact h.bind_ok (hnext c)

theorem bind {first : Except ParseError α} {second : α → Except ParseError β}
    (h : Yields text scan first) (hnext : ∀ a, Yields text (next a) (second a)) :
    Yields text (scan >>= next) (first >>= second) := by
  cases first with
  | error e => exact h.bind_error
  | ok a => exact h.bind_ok (hnext a)

/-- A list is scanned in the order of its elements, up to the first fault. -/
theorem mapM {ι : Type} {scan : ι → Scan α} {read : ι → Except ParseError α} {items : List ι}
    (h : ∀ item ∈ items, Yields text (scan item) (read item)) :
    Yields text (items.mapM scan) (items.mapM read) := by
  induction items with
  | nil => exact pure []
  | cons item rest ih =>
    obtain ⟨hitem, hrest⟩ := List.forall_mem_cons.mp h
    rw [List.mapM_cons, List.mapM_cons]
    exact hitem.bind fun a ↦ (ih hrest).bind fun others ↦ pure (a :: others)

end Yields

end FloatPolynomial
