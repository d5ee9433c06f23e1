import Mathlib.Data.List.Dedup
import FloatPolynomial.Proofs.Coefficients
import FloatPolynomial.Proofs.FixedPoints

/-!
# The Canonical Form by Groups

What a canonical form is, without sorting and merging terms: for each power that occurs, from the
highest on, the coefficients of that power are added up from left to right in the order of the list,
and the sum is a term unless it is zero.  The order in which terms of different powers alternate
does not enter, so neither does it show in the result.  Nothing is asked of the addition, so this
holds of words as well, and then of every bit of a sum that is not a number.
-/

namespace FloatPolynomial

variable {f : Format} {α : Type}

/-- The powers that occur, each of them once, from the highest on. -/
def occurringPowers (terms : List (Term f α)) : List UInt32 :=
  (terms.map Term.power).dedup.mergeSort fun i j ↦ decide (j ≤ i)

theorem mem_occurringPowers {terms : List (Term f α)} {power : UInt32} :
    power ∈ occurringPowers terms ↔ ∃ t ∈ terms, t.power = power := by
  rw [occurringPowers, List.mem_mergeSort, List.mem_dedup, List.mem_map]

theorem pairwise_occurringPowers (terms : List (Term f α)) :
    (occurringPowers terms).Pairwise fun i j ↦ j < i := by
  have hsorted : (occurringPowers terms).Pairwise fun i j ↦ decide (j ≤ i) = true := by
    apply List.pairwise_mergeSort
    · exact fun i j k ↦ descending_trans
    · exact descending_total
  have hnodup : (occurringPowers terms).Nodup :=
    (List.mergeSort_perm _ _).nodup_iff.mpr (List.nodup_dedup _)
  exact hsorted.imp₂
    (fun i j hle hne ↦ UInt32.lt_of_le_of_ne (of_decide_eq_true hle) hne.symm) hnodup

variable [Zero α] [Coefficient f α] [Add α]

/-- The sums of the coefficients of each power from left to right, by descending power and without
the sums that are zero. -/
def groupedSums (terms : List (Term f α)) : List (Term f α) :=
  (occurringPowers terms).filterMap fun power ↦
    ((leftSum (coefficientsAt power terms)).filter fun sum ↦ !Coefficient.isZero sum).map
      fun sum ↦ ⟨sum, power⟩

/-- A power whose coefficients have a sum occurs. -/
theorem mem_groupedSums {terms : List (Term f α)} {t : Term f α} :
    t ∈ groupedSums terms ↔
      leftSum (coefficientsAt t.power terms) = some t.coefficient ∧ t.isZero = false := by
  simp only [groupedSums, List.mem_filterMap, Option.map_eq_some_iff, Option.filter_eq_some_iff,
    Bool.not_eq_true']
  constructor
  · rintro ⟨power, -, sum, ⟨hsum, hnonzero⟩, rfl⟩
    exact ⟨hsum, hnonzero⟩
  · rintro ⟨hsum, hnonzero⟩
    have hmem : t ∈ canonicalize terms := mem_canonicalize.mpr ⟨hsum, hnonzero⟩
    exact ⟨t.power, mem_occurringPowers.mpr (exists_mem_of_mem_canonicalize hmem), t.coefficient,
      ⟨hsum, hnonzero⟩, rfl⟩

theorem canonical_groupedSums (terms : List (Term f α)) : Canonical (groupedSums terms) where
  descending := by
    apply List.pairwise_filterMap.mpr
    apply (pairwise_occurringPowers terms).imp
    intro i j hlt s hs t ht
    obtain ⟨_, -, rfl⟩ := Option.map_eq_some_iff.mp hs
    obtain ⟨_, -, rfl⟩ := Option.map_eq_some_iff.mp ht
    exact hlt
  nonzero _ ht := (mem_groupedSums.mp ht).2

theorem canonicalize_eq_groupedSums (terms : List (Term f α)) :
    canonicalize terms = groupedSums terms := by
  apply (canonical_canonicalize terms).eq_of_mem_iff (canonical_groupedSums terms)
  intro t
  rw [mem_canonicalize, mem_groupedSums]

/-- The coefficients of each power, in their order, are all that a canonical form depends on. -/
theorem canonicalize_congr_coefficientsAt {xs ys : List (Term f α)}
    (h : ∀ power, coefficientsAt power xs = coefficientsAt power ys) :
    canonicalize xs = canonicalize ys := by
  apply (canonical_canonicalize xs).eq_of_mem_iff (canonical_canonicalize ys)
  intro t
  rw [mem_canonicalize, mem_canonicalize, h]

namespace Poly

/-- A polynomial that is built from a list has, for each power that occurs in the list, from the
highest on, the sum of its coefficients there from left to right, unless this is zero.  Lists with
the same coefficients at each power, in the same order, build the same polynomial.  Both hold of
numbers, and bit for bit of words, whatever the addition of words does with payloads; the sums of
words stand for the sums of their numbers. -/
theorem ofTerms_grouped :
    (∀ terms : List (Term f), (ofTerms terms).terms = groupedSums terms) ∧
    (∀ xs ys : List (Term f), (∀ power, coefficientsAt power xs = coefficientsAt power ys) →
      ofTerms xs = ofTerms ys) ∧
    ∀ [WordAddition f],
      (∀ terms : List (Term f (Word f)), (ofTerms terms).terms = groupedSums terms ∧
        (ofTerms terms).number = ofTerms (terms.map Term.number)) ∧
      ∀ xs ys : List (Term f (Word f)),
        (∀ power, coefficientsAt power xs = coefficientsAt power ys) → ofTerms xs = ofTerms ys := by
  refine ⟨canonicalize_eq_groupedSums, fun xs ys hsame ↦ ?_, fun {_} ↦ ⟨fun terms ↦ ⟨?_, ?_⟩,
    fun xs ys hsame ↦ ?_⟩⟩
  · exact Poly.ext (canonicalize_congr_coefficientsAt hsame)
  · exact canonicalize_eq_groupedSums terms
  · exact Poly.ext (map_number_canonicalize terms)
  · exact Poly.ext (canonicalize_congr_coefficientsAt hsame)

/-- Two lists of words that alternate differently between the powers zero and one; the sum at power
one is a non-number whose sign and payload are those of its first addend. -/
theorem ofTerms_grouped_alternating :
    ∃ _ : WordAddition .single, ∃ xs ys : List (Term .single (Word .single)),
      xs = [⟨⟨0x3f800000#32⟩, 0⟩, ⟨⟨0xffc00002#32⟩, 1⟩, ⟨⟨0xbf800000#32⟩, 0⟩,
        ⟨⟨0x7fc00001#32⟩, 1⟩, ⟨⟨0x3f800000#32⟩, 0⟩] ∧
      ys = [⟨⟨0xffc00002#32⟩, 1⟩, ⟨⟨0x7fc00001#32⟩, 1⟩, ⟨⟨0x3f800000#32⟩, 0⟩,
        ⟨⟨0xbf800000#32⟩, 0⟩, ⟨⟨0x3f800000#32⟩, 0⟩] ∧
      (∀ power, coefficientsAt power xs = coefficientsAt power ys) ∧ ofTerms xs = ofTerms ys ∧
      groupedSums xs = [⟨⟨0xffc00002#32⟩, 1⟩, ⟨⟨0x3f800000#32⟩, 0⟩] := by
  let addition := WordAddition.keepPayload .single
  let xs : List (Term .single (Word .single)) :=
    [⟨⟨0x3f800000#32⟩, 0⟩, ⟨⟨0xffc00002#32⟩, 1⟩, ⟨⟨0xbf800000#32⟩, 0⟩, ⟨⟨0x7fc00001#32⟩, 1⟩,
      ⟨⟨0x3f800000#32⟩, 0⟩]
  let ys : List (Term .single (Word .single)) :=
    [⟨⟨0xffc00002#32⟩, 1⟩, ⟨⟨0x7fc00001#32⟩, 1⟩, ⟨⟨0x3f800000#32⟩, 0⟩, ⟨⟨0xbf800000#32⟩, 0⟩,
      ⟨⟨0x3f800000#32⟩, 0⟩]
  have hsame : ∀ power, coefficientsAt power xs = coefficientsAt power ys := by
    intro power
    simp only [xs, ys, coefficientsAt_cons]
    by_cases hzero : (0 : UInt32) = power
    · subst hzero
      rfl
    · simp only [if_neg hzero]
  obtain ⟨-, -, hwords⟩ := ofTerms_grouped (f := .single)
  obtain ⟨hgrouped, hcongr⟩ := hwords
  have hbuilt : ofTerms xs = ofTerms ys := hcongr xs ys hsame
  have hsums : (ofTerms ys).terms = [⟨⟨0xffc00002#32⟩, 1⟩, ⟨⟨0x3f800000#32⟩, 0⟩] := by
    rw [terms_ofTerms, canonicalize, sortTerms_eq_self (by decide +kernel)]
    decide +kernel
  refine ⟨addition, xs, ys, rfl, rfl, hsame, hbuilt, ?_⟩
  rw [← (hgrouped xs).1, hbuilt, hsums]

end Poly

end FloatPolynomial
