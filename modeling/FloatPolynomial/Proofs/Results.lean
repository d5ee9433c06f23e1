import Mathlib.Data.List.Forall2
import Mathlib.Data.List.TakeWhile

/-!
# Where Computations on Lists Stop

A computation over a list that stops at its first failure: when it succeeds, and with which
results, and which failure it reports, if failures are told apart.

A list that consists of a part whose items all pass a test and of a rest that does not begin with
such an item is cut between the two by `takeWhile` and `dropWhile`.
-/

namespace FloatPolynomial

variable {ε ε' α β : Type}

theorem error_ne_ok {e : ε} {a : α} : (.error e : Except ε α) ≠ .ok a := by
  intro h
  cases h

theorem exists_eq_error_iff {result : Except ε α} :
    (∃ e, result = .error e) ↔ ¬∃ a, result = .ok a := by
  cases result <;> simp

theorem bind_eq_ok_iff {result : Except ε α} {next : α → Except ε β} {b : β} :
    result >>= next = .ok b ↔ ∃ a, result = .ok a ∧ next a = .ok b := by
  cases result with
  | error e =>
    apply iff_of_false error_ne_ok
    rintro ⟨_, h, _⟩
    exact error_ne_ok h
  | ok a =>
    constructor
    · intro h
      exact ⟨a, rfl, h⟩
    · rintro ⟨_, hok, h⟩
      cases hok
      exact h

theorem bind_eq_error_iff {result : Except ε α} {next : α → Except ε β} {e : ε} :
    result >>= next = .error e ↔ result = .error e ∨ ∃ a, result = .ok a ∧ next a = .error e := by
  cases result with
  | error e' =>
    constructor
    · intro h
      exact Or.inl (congrArg _ (Except.error.inj h))
    · rintro (h | ⟨_, h, _⟩)
      · exact congrArg _ (Except.error.inj h)
      · exact absurd h error_ne_ok
  | ok a =>
    constructor
    · intro h
      exact Or.inr ⟨a, rfl, h⟩
    · rintro (h | ⟨_, hok, h⟩)
      · exact absurd h.symm error_ne_ok
      · cases hok
        exact h

/-- Failures may be renamed before or after the next computation. -/
theorem mapError_bind (rename : ε → ε') (result : Except ε α) (next : α → Except ε β) :
    (result >>= next).mapError rename =
      result.mapError rename >>= fun a ↦ (next a).mapError rename := by
  cases result <;> rfl

theorem mapM_mapError (rename : ε → ε') (step : α → Except ε β) (items : List α) :
    items.mapM (fun item ↦ (step item).mapError rename) = (items.mapM step).mapError rename := by
  induction items with
  | nil => rfl
  | cons item rest ih =>
    rw [List.mapM_cons, List.mapM_cons, mapError_bind, ih]
    congr 1
    funext result
    rw [mapError_bind]
    rfl

theorem mapM_eq_ok_iff {step : α → Except ε β} {items : List α} {results : List β} :
    items.mapM step = .ok results ↔
      List.Forall₂ (fun item result ↦ step item = .ok result) items results := by
  induction items generalizing results with
  | nil =>
    rw [List.mapM_nil, List.forall₂_nil_left_iff]
    constructor
    · intro h
      cases h
      rfl
    · rintro rfl
      rfl
  | cons item rest ih =>
    rw [List.mapM_cons, bind_eq_ok_iff, List.forall₂_cons_left_iff]
    apply exists_congr
    intro result
    rw [bind_eq_ok_iff]
    constructor
    · rintro ⟨hitem, others, hrest, hresults⟩
      cases hresults
      exact ⟨others, hitem, ih.mp hrest, rfl⟩
    · rintro ⟨others, hitem, hrest, rfl⟩
      exact ⟨hitem, others, ih.mpr hrest, rfl⟩

/-- A step that succeeds exactly on some items, with results given by a function. -/
theorem mapM_eq_ok_iff_map {step : α → Except ε β} {P : α → Prop} {g : α → β}
    (h : ∀ item result, step item = .ok result ↔ P item ∧ result = g item)
    {items : List α} {results : List β} :
    items.mapM step = .ok results ↔ (∀ item ∈ items, P item) ∧ results = items.map g := by
  rw [mapM_eq_ok_iff]
  simp only [h]
  rw [List.forall₂_and_left, eq_comm, ← List.forall₂_eq_eq_eq, List.forall₂_map_left_iff]
  apply and_congr_right
  intro _
  simp only [eq_comm]

/-- The failure that is reported is the first one. -/
theorem mapM_eq_error_iff {step : α → Except ε β} {items : List α} {e : ε} :
    items.mapM step = .error e ↔
      ∃ before item after, items = before ++ item :: after ∧
        (∀ a ∈ before, ∃ b, step a = .ok b) ∧ step item = .error e := by
  induction items with
  | nil =>
    rw [List.mapM_nil]
    apply iff_of_false error_ne_ok.symm
    rintro ⟨before, item, after, hitems, -⟩
    exact absurd hitems.symm (by simp)
  | cons first rest ih =>
    rw [List.mapM_cons, bind_eq_error_iff]
    simp only [bind_eq_error_iff, ih]
    constructor
    · rintro (hfirst | ⟨b, hb, ⟨before, item, after, rfl, hbefore, hitem⟩ | ⟨_, _, h⟩⟩)
      · exact ⟨[], first, rest, rfl, by simp, hfirst⟩
      · exact ⟨first :: before, item, after, rfl,
          List.forall_mem_cons.mpr ⟨⟨b, hb⟩, hbefore⟩, hitem⟩
      · exact absurd h.symm error_ne_ok
    · rintro ⟨before, item, after, hitems, hbefore, hitem⟩
      cases before with
      | nil =>
        obtain ⟨rfl, rfl⟩ := List.cons.inj hitems
        exact Or.inl hitem
      | cons a before =>
        obtain ⟨rfl, rfl⟩ := List.cons.inj hitems
        obtain ⟨⟨b, hb⟩, hbefore⟩ := List.forall_mem_cons.mp hbefore
        exact Or.inr ⟨b, hb, Or.inl ⟨before, item, after, rfl, hbefore, hitem⟩⟩

/-- Where the first item decides for all others, it is the only one that can be reported. -/
theorem mapM_cons_eq_error_iff {step : α → Except ε β} {first : α} {rest : List α} {e : ε}
    (h : ∀ b, step first = .ok b → ∀ item ∈ rest, ∃ b, step item = .ok b) :
    (first :: rest).mapM step = .error e ↔ step first = .error e := by
  rw [List.mapM_cons, bind_eq_error_iff]
  constructor
  · rintro (hfirst | ⟨b, hb, hrest⟩)
    · exact hfirst
    · rcases bind_eq_error_iff.mp hrest with hrest | ⟨_, _, hpure⟩
      · obtain ⟨before, item, after, rfl, -, hitem⟩ := mapM_eq_error_iff.mp hrest
        obtain ⟨_, hok⟩ := h b hb item (List.mem_append_right _ List.mem_cons_self)
        exact absurd (hitem.symm.trans hok) error_ne_ok
      · exact absurd hpure.symm error_ne_ok
  · exact Or.inl

theorem mapM_eq_some_iff {step : α → Option β} {items : List α} {results : List β} :
    items.mapM step = some results ↔
      List.Forall₂ (fun item result ↦ step item = some result) items results := by
  induction items generalizing results with
  | nil =>
    rw [List.mapM_nil, List.forall₂_nil_left_iff, Option.pure_def, Option.some.injEq, eq_comm]
  | cons item rest ih =>
    rw [List.mapM_cons, List.forall₂_cons_left_iff, Option.bind_eq_bind, Option.bind_eq_some_iff]
    apply exists_congr
    intro result
    rw [Option.bind_eq_bind, Option.bind_eq_some_iff]
    constructor
    · rintro ⟨hitem, others, hrest, hresults⟩
      cases hresults
      exact ⟨others, hitem, ih.mp hrest, rfl⟩
    · rintro ⟨others, hitem, hrest, rfl⟩
      exact ⟨hitem, others, ih.mpr hrest, rfl⟩

theorem mapM_eq_none_of_mem {step : α → Option β} {items : List α} {item : α}
    (hmem : item ∈ items) (h : step item = none) : items.mapM step = none := by
  induction items with
  | nil => cases hmem
  | cons first rest ih =>
    rw [List.mapM_cons]
    rcases List.mem_cons.mp hmem with rfl | hrest
    · rw [h]
      rfl
    · rw [ih hrest]
      cases step first <;> rfl

/-- A list of encoded items is decoded if and only if each of them is. -/
theorem mapM_map_eq_ite {encode : α → β} {decode : β → Option α} {valid : α → Bool}
    (h : ∀ item, decode (encode item) = if valid item then some item else none) (items : List α) :
    (items.map encode).mapM decode = if items.all valid then some items else none := by
  induction items with
  | nil => rfl
  | cons item rest ih =>
    rw [List.map_cons, List.mapM_cons, h, ih, List.all_cons]
    cases valid item with
    | false => rfl
    | true => cases rest.all valid <;> rfl

section MaximalRuns

variable {p : α → Bool} {front back : List α}

theorem takeWhile_append_stop (hinside : ∀ a ∈ front, p a = true)
    (hstop : ∀ a ∈ back.head?, p a = false) : (front ++ back).takeWhile p = front := by
  rw [List.takeWhile_append_of_pos hinside]
  cases back with
  | nil => exact List.append_nil front
  | cons a rest => rw [List.takeWhile_cons_of_neg (by simp [hstop a rfl]), List.append_nil]

theorem dropWhile_append_stop (hinside : ∀ a ∈ front, p a = true)
    (hstop : ∀ a ∈ back.head?, p a = false) : (front ++ back).dropWhile p = back := by
  rw [List.dropWhile_append_of_pos hinside]
  cases back with
  | nil => rfl
  | cons a rest => exact List.dropWhile_cons_of_neg (by simp [hstop a rfl])

theorem stop_dropWhile (p : α → Bool) (items : List α) :
    ∀ a ∈ (items.dropWhile p).head?, p a = false := by
  intro a ha
  have hstop := List.head?_dropWhile_not p items
  rw [Option.mem_def.mp ha] at hstop
  exact hstop

end MaximalRuns

end FloatPolynomial
