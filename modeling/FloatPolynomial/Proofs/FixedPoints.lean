import FloatPolynomial.Canonical
import FloatPolynomial.Proofs.Binary.Words
import FloatPolynomial.Proofs.Binary.ZeroSums

/-!
# Fixed Points of the Canonical Form

The lists that are their own canonical form are those that pass the neighbour test.  A list that
passes is sorted, has nothing to merge and nothing to drop; a list that is kept is a result, and
results pass.

All non-numbers are one number.  That not a single bit of a coefficient changes is said of words,
which are sorted, merged and dropped as the numbers that they stand for, whatever the addition of
words does with payloads.
-/

namespace FloatPolynomial

variable {f : Format} {α : Type}

section Kept

variable [Zero α] [Coefficient f α] [Add α]

theorem isCanonical_canonicalize (terms : List (Term f α)) :
    isCanonical (canonicalize terms) = true :=
  (isCanonical_iff _).mpr (canonical_canonicalize terms)

theorem canonicalize_eq_self_iff {terms : List (Term f α)} :
    canonicalize terms = terms ↔ isCanonical terms = true := by
  constructor
  · intro hkept
    rw [← hkept]
    exact isCanonical_canonicalize terms
  · intro h
    exact canonicalize_eq_self ((isCanonical_iff terms).mp h)

end Kept

theorem Term.isZero_eq_false_iff {t : Term f} :
    t.isZero = false ↔ t.coefficient ≠ 0 ∧ t.coefficient ≠ -0 := by
  rw [isZero_eq, ← Bool.not_eq_true, Binary.isZero_eq_true_iff, not_or]

/-- A list is canonical if none of its coefficients is a zero of either sign and each power exceeds
all the later ones. -/
theorem canonical_iff {terms : List (Term f)} :
    Canonical terms ↔
      (∀ t ∈ terms, t.coefficient ≠ 0 ∧ t.coefficient ≠ -0) ∧
        terms.Pairwise fun s t ↦ t.power < s.power := by
  constructor
  · intro h
    exact ⟨fun t ht ↦ Term.isZero_eq_false_iff.mp (h.nonzero t ht), h.descending⟩
  · intro ⟨hnonzero, hdescending⟩
    exact ⟨hdescending, fun t ht ↦ Term.isZero_eq_false_iff.mpr (hnonzero t ht)⟩

section Numbers

theorem map_number_sortTerms [Zero α] [Coefficient f α] (terms : List (Term f α)) :
    (sortTerms terms).map Term.number = sortTerms (terms.map Term.number) :=
  List.map_mergeSort fun _ _ _ _ ↦ rfl

theorem map_number_dropZeros [Zero α] [Coefficient f α] (terms : List (Term f α)) :
    (dropZeros terms).map Term.number = dropZeros (terms.map Term.number) := by
  rw [dropZeros, dropZeros, List.filter_map]
  rfl

theorem isCanonical_map_number [Zero α] [Coefficient f α] (terms : List (Term f α)) :
    isCanonical (terms.map Term.number) = isCanonical terms := by
  rw [Bool.eq_iff_iff, isCanonical_iff, isCanonical_iff, canonical_number_iff]

variable [WordAddition f]

theorem map_number_mergeInto (head : Term f (Word f)) (rest : List (Term f (Word f))) :
    (mergeInto head rest).map Term.number = mergeInto head.number (rest.map Term.number) := by
  induction rest generalizing head with
  | nil => rfl
  | cons t rest ih =>
    rw [List.map_cons, mergeInto, mergeInto, Term.power_number, Term.power_number]
    split
    · rw [ih, Term.number, Coefficient.number_word, WordAddition.ofWord_add]
      rfl
    · rw [List.map_cons, ih]

theorem map_number_mergeTerms (terms : List (Term f (Word f))) :
    (mergeTerms terms).map Term.number = mergeTerms (terms.map Term.number) := by
  cases terms with
  | nil => rfl
  | cons t rest => exact map_number_mergeInto t rest

/-- Words are brought into the canonical form of the numbers that they stand for. -/
theorem map_number_canonicalize (terms : List (Term f (Word f))) :
    (canonicalize terms).map Term.number = canonicalize (terms.map Term.number) := by
  rw [canonicalize, map_number_dropZeros, map_number_mergeTerms, map_number_sortTerms,
    canonicalize]

end Numbers

/-- Every canonical form passes the neighbour test.  The lists that pass it are those that are their
own canonical form, so the canonical form of a canonical form is the same list; and they are those
in which no coefficient is a zero of either sign and each power exceeds all the later ones.  Words
have the canonical form of the numbers that they stand for, and it is the same lists in which every
word is kept, whatever the addition of words does with payloads. -/
theorem canonicalize_fixed_points :
    (∀ terms : List (Term f),
      isCanonical (canonicalize terms) = true ∧
      (canonicalize terms = terms ↔ isCanonical terms = true) ∧
      canonicalize (canonicalize terms) = canonicalize terms ∧
      (isCanonical terms = true ↔
        (∀ t ∈ terms, t.coefficient ≠ 0 ∧ t.coefficient ≠ -0) ∧
          terms.Pairwise fun s t ↦ t.power < s.power)) ∧
    ∀ [WordAddition f] (terms : List (Term f (Word f))),
      (canonicalize terms).map Term.number = canonicalize (terms.map Term.number) ∧
      (canonicalize terms = terms ↔ isCanonical (terms.map Term.number) = true) ∧
      canonicalize (canonicalize terms) = canonicalize terms := by
  constructor
  · intro terms
    have hresult := isCanonical_canonicalize terms
    refine ⟨hresult, canonicalize_eq_self_iff, canonicalize_eq_self_iff.mpr hresult, ?_⟩
    rw [isCanonical_iff, canonical_iff]
  · intro _ terms
    refine ⟨map_number_canonicalize terms, ?_,
      canonicalize_eq_self_iff.mpr (isCanonical_canonicalize terms)⟩
    rw [isCanonical_map_number]
    exact canonicalize_eq_self_iff

end FloatPolynomial
