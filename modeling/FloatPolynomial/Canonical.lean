import FloatPolynomial.Term

/-!
# Canonical Lists of Terms

A list of terms is canonical when its powers strictly descend and none of its coefficients is
zero.  Any list is brought into this form in three steps: a stable sort by descending power, the
addition of coefficients that share a power, from left to right, and the removal of zeros.

The main statements are `canonical_canonicalize`, that the result is canonical, and
`canonicalize_eq_self`, that a canonical list is its own result.  `isCanonical` decides whether a
list is canonical, and compares each power with the next one only; because the order of powers is
transitive, this is enough (`isCanonical_iff`).
-/

namespace FloatPolynomial

variable {f : Format} {α : Type}

/-- The terms by descending power; those of one power keep their order. -/
def sortTerms (terms : List (Term f α)) : List (Term f α) :=
  terms.mergeSort fun s t ↦ decide (t.power ≤ s.power)

/-- Whether each power exceeds the next one. -/
def descends : List (Term f α) → Bool
  | s :: t :: rest => decide (t.power < s.power) && descends (t :: rest)
  | _ => true

theorem descending_trans {i j k : UInt32} (hij : decide (j ≤ i) = true)
    (hjk : decide (k ≤ j) = true) : decide (k ≤ i) = true := by
  rw [decide_eq_true_eq] at hij hjk ⊢
  exact UInt32.le_trans hjk hij

theorem descending_total (i j : UInt32) : (decide (j ≤ i) || decide (i ≤ j)) = true := by
  rw [Bool.or_eq_true, decide_eq_true_eq, decide_eq_true_eq]
  exact UInt32.le_total j i

theorem pairwise_sortTerms (terms : List (Term f α)) :
    (sortTerms terms).Pairwise fun s t ↦ t.power ≤ s.power := by
  have hsorted : (sortTerms terms).Pairwise fun s t ↦ decide (t.power ≤ s.power) = true := by
    apply List.pairwise_mergeSort
    · exact fun s t u ↦ descending_trans
    · exact fun s t ↦ descending_total s.power t.power
  exact hsorted.imp of_decide_eq_true

theorem perm_sortTerms (terms : List (Term f α)) : (sortTerms terms).Perm terms :=
  List.mergeSort_perm ..

theorem sortTerms_eq_self {terms : List (Term f α)}
    (h : terms.Pairwise fun s t ↦ t.power ≤ s.power) : sortTerms terms = terms :=
  List.mergeSort_of_pairwise (h.imp fun hle ↦ decide_eq_true hle)

theorem descends_iff_pairwise (terms : List (Term f α)) :
    descends terms = true ↔ terms.Pairwise fun s t ↦ t.power < s.power := by
  induction terms with
  | nil => exact iff_of_true rfl List.Pairwise.nil
  | cons s rest ih =>
    cases rest with
    | nil => exact iff_of_true rfl (List.pairwise_singleton ..)
    | cons t rest =>
      rw [List.pairwise_cons, descends, Bool.and_eq_true, decide_eq_true_eq, ih]
      constructor
      · intro ⟨hlt, htail⟩
        refine ⟨fun u hu ↦ ?_, htail⟩
        rcases List.mem_cons.mp hu with rfl | hrest
        · exact hlt
        · exact UInt32.lt_trans ((List.pairwise_cons.mp htail).1 u hrest) hlt
      · intro ⟨hall, htail⟩
        exact ⟨hall t List.mem_cons_self, htail⟩

section Merge

variable [Add α]

/-- Adds to `head` the coefficients of the terms that follow with its power, then continues with
the first term of another power. -/
def mergeInto (head : Term f α) : List (Term f α) → List (Term f α)
  | [] => [head]
  | t :: rest =>
    if t.power = head.power then mergeInto ⟨head.coefficient + t.coefficient, head.power⟩ rest
    else head :: mergeInto t rest

/-- Adds up neighbouring terms of equal powers. -/
def mergeTerms : List (Term f α) → List (Term f α)
  | [] => []
  | t :: rest => mergeInto t rest

/-- Merging invents no power. -/
theorem power_le_of_mem_mergeInto {head t : Term f α} {rest : List (Term f α)} {bound : UInt32}
    (hhead : head.power ≤ bound) (hrest : ∀ s ∈ rest, s.power ≤ bound)
    (h : t ∈ mergeInto head rest) : t.power ≤ bound := by
  induction rest generalizing head with
  | nil =>
    rw [mergeInto, List.mem_singleton] at h
    exact h ▸ hhead
  | cons s rest ih =>
    rw [List.forall_mem_cons] at hrest
    unfold mergeInto at h
    split at h
    · refine ih ?_ hrest.2 h
      exact hhead
    · rcases List.mem_cons.mp h with rfl | htail
      · exact hhead
      · exact ih hrest.1 hrest.2 htail

theorem pairwise_mergeInto {head : Term f α} {rest : List (Term f α)}
    (h : (head :: rest).Pairwise fun s t ↦ t.power ≤ s.power) :
    (mergeInto head rest).Pairwise fun s t ↦ t.power < s.power := by
  induction rest generalizing head with
  | nil => exact List.pairwise_singleton ..
  | cons s rest ih =>
    obtain ⟨hhead, htail⟩ := List.pairwise_cons.mp h
    obtain ⟨hs, hrest⟩ := List.pairwise_cons.mp htail
    unfold mergeInto
    split
    · exact ih (List.pairwise_cons.mpr ⟨fun t ht ↦ hhead t (List.mem_cons_of_mem _ ht), hrest⟩)
    · refine List.pairwise_cons.mpr ⟨fun t ht ↦ ?_, ih htail⟩
      have hle : t.power ≤ s.power := power_le_of_mem_mergeInto (UInt32.le_refl _) hs ht
      have hlt : s.power < head.power :=
        UInt32.lt_of_le_of_ne (hhead s List.mem_cons_self) ‹_›
      exact UInt32.lt_of_le_of_lt hle hlt

theorem pairwise_mergeTerms {terms : List (Term f α)}
    (h : terms.Pairwise fun s t ↦ t.power ≤ s.power) :
    (mergeTerms terms).Pairwise fun s t ↦ t.power < s.power := by
  cases terms with
  | nil => exact List.Pairwise.nil
  | cons t rest => exact pairwise_mergeInto h

/-- Where no two powers are equal, nothing is added. -/
theorem mergeInto_eq_cons {head : Term f α} {rest : List (Term f α)}
    (h : (head :: rest).Pairwise fun s t ↦ t.power < s.power) :
    mergeInto head rest = head :: rest := by
  induction rest generalizing head with
  | nil => rfl
  | cons s rest ih =>
    obtain ⟨hhead, htail⟩ := List.pairwise_cons.mp h
    have hne : s.power ≠ head.power := UInt32.ne_of_lt (hhead s List.mem_cons_self)
    rw [mergeInto, if_neg hne, ih htail]

theorem mergeTerms_eq_self {terms : List (Term f α)}
    (h : terms.Pairwise fun s t ↦ t.power < s.power) : mergeTerms terms = terms := by
  cases terms with
  | nil => rfl
  | cons t rest => exact mergeInto_eq_cons h

end Merge

variable [Zero α] [Coefficient f α]

/-- Strictly descending powers and no zero coefficient. -/
structure Canonical (terms : List (Term f α)) : Prop where
  descending : terms.Pairwise fun s t ↦ t.power < s.power
  nonzero : ∀ t ∈ terms, t.isZero = false

/-- Removes the terms with a zero coefficient. -/
def dropZeros (terms : List (Term f α)) : List (Term f α) :=
  terms.filter fun t ↦ !t.isZero

/-- The canonical list with the same sums of coefficients. -/
def canonicalize [Add α] (terms : List (Term f α)) : List (Term f α) :=
  dropZeros (mergeTerms (sortTerms terms))

/-- Whether no coefficient is zero and each power exceeds the next one. -/
def isCanonical (terms : List (Term f α)) : Bool :=
  terms.all (fun t ↦ !t.isZero) && descends terms

theorem dropZeros_eq_self {terms : List (Term f α)} (h : ∀ t ∈ terms, t.isZero = false) :
    dropZeros terms = terms :=
  List.filter_eq_self.mpr fun t ht ↦ by simp [h t ht]

/-- The neighbour test decides whether a list is canonical. -/
theorem isCanonical_iff (terms : List (Term f α)) : isCanonical terms = true ↔ Canonical terms := by
  rw [isCanonical, Bool.and_eq_true, descends_iff_pairwise, List.all_eq_true]
  constructor
  · intro ⟨hnonzero, hdescending⟩
    exact ⟨hdescending, fun t ht ↦ by simpa using hnonzero t ht⟩
  · intro h
    exact ⟨fun t ht ↦ by simp [h.nonzero t ht], h.descending⟩

theorem canonical_number_iff {terms : List (Term f α)} :
    Canonical (terms.map Term.number) ↔ Canonical terms := by
  constructor
  · intro ⟨hdescending, hnonzero⟩
    exact ⟨List.pairwise_map.mp hdescending, fun t ht ↦ hnonzero _ (List.mem_map_of_mem ht)⟩
  · intro ⟨hdescending, hnonzero⟩
    exact ⟨List.pairwise_map.mpr hdescending, List.forall_mem_map.mpr hnonzero⟩

section Canonicalize

variable [Add α]

theorem canonical_canonicalize (terms : List (Term f α)) : Canonical (canonicalize terms) where
  descending := (pairwise_mergeTerms (pairwise_sortTerms terms)).filter _
  nonzero t ht := by simpa using (List.mem_filter.mp ht).2

theorem canonicalize_of_descending {terms : List (Term f α)}
    (h : terms.Pairwise fun s t ↦ t.power < s.power) : canonicalize terms = dropZeros terms := by
  rw [canonicalize, sortTerms_eq_self (h.imp UInt32.le_of_lt), mergeTerms_eq_self h]

theorem canonicalize_eq_self {terms : List (Term f α)} (h : Canonical terms) :
    canonicalize terms = terms := by
  rw [canonicalize_of_descending h.descending, dropZeros_eq_self h.nonzero]

end Canonicalize

end FloatPolynomial
