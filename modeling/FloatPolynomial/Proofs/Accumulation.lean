import Mathlib.Data.List.Basic
import Mathlib.Data.List.Induction
import FloatPolynomial.Poly.Arithmetic
import FloatPolynomial.Proofs.Coefficients

/-!
# Building Term by Term

A polynomial that is built from a list at once keeps every partial sum until the end, zeros
included.  One that grows by single additions, or by edits in place, drops a term as soon as it
cancels and inserts it again later.  All of them add the coefficients of one power in the order of
the list, and a partial sum that was dropped counts as the positive zero, which is neutral; so they
agree, with every rounding.
-/

namespace FloatPolynomial

namespace Poly

variable {f : Format}

/-- Terms in descending order may be built into a polynomial before they are added. -/
theorem ofTerms_add_ofTerms (front : List (Term f)) {back : List (Term f)}
    (h : back.Pairwise fun s t ↦ t.power < s.power) :
    ofTerms front + ofTerms back = ofTerms (front ++ back) := by
  apply Poly.ext
  calc
    canonicalize (canonicalize front ++ canonicalize back)
      = canonicalize (front ++ canonicalize back) := canonicalize_append ..
    _ = canonicalize (front ++ dropZeros back) := by rw [canonicalize_of_descending h]
    _ = canonicalize (front ++ back) := canonicalize_append_dropZeros ..

theorem ofTerms_add (front : List (Term f)) (p : Poly f) :
    ofTerms front + p = ofTerms (front ++ p.terms) := by
  rw [← ofTerms_add_ofTerms front p.canonical.descending, ofTerms_terms]

/-- One more term at the end of a list is one coefficient that changes. -/
theorem setCoefficient_ofTerms (terms : List (Term f)) (t : Term f) :
    (ofTerms terms).setCoefficient t.power
        ((ofTerms terms).coefficient t.power + t.coefficient) =
      ofTerms (terms ++ [t]) := by
  apply ext_coefficient
  intro power
  rw [coefficient_setCoefficient, coefficient_ofTerms, coefficient_ofTerms, coefficient_ofTerms,
    sumAt_append, coefficientsAt_cons, coefficientsAt_nil]
  split
  · rename_i hpower
    subst hpower
    rw [if_pos rfl, List.foldl_cons, List.foldl_nil]
    split
    · have hsum : Binary.NoNegativeZero (sumAt t.power terms + t.coefficient) :=
        Binary.noNegativeZero_add (noNegativeZero_sumAt t.power terms) t.coefficient
      exact (hsum ‹_›).symm
    · rfl
  · rename_i hpower
    rw [if_neg (Ne.symm hpower), List.foldl_nil]

theorem foldl_add_ofTerms (terms : List (Term f)) :
    terms.foldl (fun p t ↦ p + ofTerms [t]) 0 = ofTerms terms := by
  induction terms using List.reverseRecOn with
  | nil => exact ofTerms_nil.symm
  | append_singleton terms t ih =>
    rw [List.foldl_concat, ih, ofTerms_add_ofTerms _ (List.pairwise_singleton ..)]

theorem foldl_setCoefficient (terms : List (Term f)) :
    terms.foldl (fun p t ↦ p.setCoefficient t.power (p.coefficient t.power + t.coefficient)) 0 =
      ofTerms terms := by
  induction terms using List.reverseRecOn with
  | nil => exact ofTerms_nil.symm
  | append_singleton terms t ih => rw [List.foldl_concat, ih, setCoefficient_ofTerms]

theorem foldl_add (ps : List (Poly f)) : ps.foldl (· + ·) 0 = sum ps := by
  induction ps using List.reverseRecOn with
  | nil => exact ofTerms_nil.symm
  | append_singleton ps p ih =>
    rw [List.foldl_concat, ih, sum, ofTerms_add, sum, List.flatMap_append, List.flatMap_singleton]

/-- Building from a list at once, by adding one term after the other, and by editing one
coefficient after the other give the same polynomial; so do the sum of a list of polynomials and
adding one after the other; and a list may be built from any of its beginnings on. -/
theorem ofTerms_term_by_term :
    (∀ terms : List (Term f),
      terms.foldl (fun p t ↦ p + ofTerms [t]) 0 = ofTerms terms ∧
      terms.foldl (fun p t ↦ p.setCoefficient t.power (p.coefficient t.power + t.coefficient)) 0 =
        ofTerms terms) ∧
    (∀ ps : List (Poly f), ps.foldl (· + ·) 0 = sum ps) ∧
    ∀ front back : List (Term f),
      ofTerms ((ofTerms front).terms ++ back) = ofTerms (front ++ back) := by
  refine ⟨fun terms ↦ ⟨foldl_add_ofTerms terms, foldl_setCoefficient terms⟩, foldl_add, ?_⟩
  intro front back
  exact Poly.ext (canonicalize_append front back)

end Poly

end FloatPolynomial
