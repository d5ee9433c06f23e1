import FloatPolynomial.Proofs.Binary.ZeroSums
import FloatPolynomial.Proofs.LeadingTerm

/-!
# Coefficients of a Canonical Form

The coefficients that a list of terms has at one power, in the order of the list.  Sorting keeps
them because it is stable, merging adds them up from left to right, and removing zeros drops the
sum if it is zero; `mem_canonicalize` says which terms are left.

Two lists with equal sums at every power have the same canonical form.  With sums that start from
the positive zero this gives the laws of concatenation: a canonical form may stand in front of the
terms that follow in place of the terms it was built from.

What is read from a polynomial at a power is the sum there, so a polynomial is determined by what is
read; replacing one coefficient changes what is read at that power only.
-/

namespace FloatPolynomial

variable {f : Format} {α : Type}

/-- The coefficients of a list at one power, in the order of the list. -/
def coefficientsAt (power : UInt32) (terms : List (Term f α)) : List α :=
  (terms.filter fun t ↦ t.power == power).map Term.coefficient

@[simp]
theorem coefficientsAt_nil (power : UInt32) : coefficientsAt power ([] : List (Term f α)) = [] := rfl

theorem coefficientsAt_cons (power : UInt32) (t : Term f α) (terms : List (Term f α)) :
    coefficientsAt power (t :: terms) =
      if t.power = power then t.coefficient :: coefficientsAt power terms
      else coefficientsAt power terms := by
  by_cases h : t.power = power <;> simp [coefficientsAt, h]

@[simp]
theorem coefficientsAt_append (power : UInt32) (front back : List (Term f α)) :
    coefficientsAt power (front ++ back) =
      coefficientsAt power front ++ coefficientsAt power back := by
  simp [coefficientsAt]

theorem mem_coefficientsAt {power : UInt32} {terms : List (Term f α)} {c : α} :
    c ∈ coefficientsAt power terms ↔ ⟨c, power⟩ ∈ terms := by
  simp only [coefficientsAt, List.mem_map, List.mem_filter, beq_iff_eq]
  constructor
  · rintro ⟨t, ⟨ht, rfl⟩, rfl⟩
    exact ht
  · intro h
    exact ⟨⟨c, power⟩, ⟨h, rfl⟩, rfl⟩

theorem coefficientsAt_eq_nil {power : UInt32} {terms : List (Term f α)}
    (h : ∀ t ∈ terms, t.power ≠ power) : coefficientsAt power terms = [] := by
  apply List.eq_nil_iff_forall_not_mem.mpr
  intro c hc
  exact h _ (mem_coefficientsAt.mp hc) rfl

/-- Sorting is stable. -/
@[simp]
theorem coefficientsAt_sortTerms (power : UInt32) (terms : List (Term f α)) :
    coefficientsAt power (sortTerms terms) = coefficientsAt power terms := by
  have hequal : (terms.filter fun t ↦ t.power == power).Pairwise
      fun s t ↦ decide (t.power ≤ s.power) = true := by
    apply List.pairwise_filter.mpr
    apply List.pairwise_of_forall
    intro s t hs ht
    rw [eq_of_beq hs, eq_of_beq ht]
    exact decide_eq_true (UInt32.le_refl power)
  have hsorted : (terms.filter fun t ↦ t.power == power).Sublist (sortTerms terms) := by
    apply List.sublist_mergeSort _ _ hequal List.filter_sublist
    · exact fun s t u ↦ descending_trans
    · exact fun s t ↦ descending_total s.power t.power
  have hsublist := hsorted.filter fun t ↦ t.power == power
  rw [List.filter_filter] at hsublist
  simp only [Bool.and_self] at hsublist
  have hlength := ((perm_sortTerms terms).filter fun t ↦ t.power == power).length_eq
  rw [coefficientsAt, ← hsublist.eq_of_length hlength.symm, coefficientsAt]

/-- Around the place of a power there are no coefficients for it. -/
theorem coefficientsAt_split {power : UInt32} {before own after : List (Term f α)}
    (hbefore : ∀ t ∈ before, power < t.power) (hafter : ∀ t ∈ after, t.power < power) :
    coefficientsAt power (before ++ own ++ after) = coefficientsAt power own := by
  have hfront : coefficientsAt power before = [] :=
    coefficientsAt_eq_nil fun t ht heq ↦ UInt32.lt_irrefl _ (heq ▸ hbefore t ht)
  have hback : coefficientsAt power after = [] :=
    coefficientsAt_eq_nil fun t ht heq ↦ UInt32.lt_irrefl _ (heq ▸ hafter t ht)
  rw [coefficientsAt_append, coefficientsAt_append, hfront, hback, List.nil_append,
    List.append_nil]

section Merge

variable [Add α]

/-- Merging a list of descending powers adds up the coefficients of each power. -/
theorem coefficientsAt_mergeInto (power : UInt32) {head : Term f α} {rest : List (Term f α)}
    (h : (head :: rest).Pairwise fun s t ↦ t.power ≤ s.power) :
    coefficientsAt power (mergeInto head rest) =
      (leftSum (coefficientsAt power (head :: rest))).toList := by
  induction rest generalizing head with
  | nil =>
    rw [mergeInto, coefficientsAt_cons]
    split <;> rfl
  | cons t rest ih =>
    obtain ⟨hhead, htail⟩ := List.pairwise_cons.mp h
    obtain ⟨ht, hrest⟩ := List.pairwise_cons.mp htail
    unfold mergeInto
    split
    · rename_i hsame
      have hmerged : (⟨head.coefficient + t.coefficient, head.power⟩ :: rest).Pairwise
          fun s t ↦ t.power ≤ s.power :=
        List.pairwise_cons.mpr ⟨fun s hs ↦ hhead s (List.mem_cons_of_mem _ hs), hrest⟩
      rw [ih hmerged]
      simp only [coefficientsAt_cons, hsame]
      split <;> rfl
    · rename_i hother
      rw [coefficientsAt_cons, ih htail, coefficientsAt_cons power head]
      split
      · rename_i hpower
        have hlt : t.power < head.power :=
          UInt32.lt_of_le_of_ne (hhead t List.mem_cons_self) hother
        have hnone : coefficientsAt power (t :: rest) = [] := by
          apply coefficientsAt_eq_nil
          intro s hs hs'
          have hle : s.power ≤ t.power := by
            rcases List.mem_cons.mp hs with rfl | hs
            · exact UInt32.le_refl _
            · exact ht s hs
          rw [hs', ← hpower] at hle
          exact UInt32.lt_irrefl _ (UInt32.lt_of_le_of_lt hle hlt)
        rw [hnone]
        rfl
      · rfl

theorem coefficientsAt_mergeTerms (power : UInt32) {terms : List (Term f α)}
    (h : terms.Pairwise fun s t ↦ t.power ≤ s.power) :
    coefficientsAt power (mergeTerms terms) =
      (leftSum (coefficientsAt power terms)).toList := by
  cases terms with
  | nil => rfl
  | cons head rest => exact coefficientsAt_mergeInto power h

end Merge

variable [Zero α] [Coefficient f α]

@[simp]
theorem coefficientsAt_dropZeros (power : UInt32) (terms : List (Term f α)) :
    coefficientsAt power (dropZeros terms) =
      (coefficientsAt power terms).filter fun c ↦ !Coefficient.isZero c := by
  rw [coefficientsAt, coefficientsAt, dropZeros, List.filter_map, List.filter_filter,
    List.filter_filter]
  congr 1
  exact List.filter_congr fun t _ ↦ Bool.and_comm ..

theorem Canonical.nodup {terms : List (Term f α)} (h : Canonical terms) : terms.Nodup :=
  List.nodup_iff_pairwise_ne.mpr
    (h.descending.imp fun {s t} hlt (heq : s = t) ↦ UInt32.lt_irrefl _ (heq ▸ hlt))

/-- A canonical list is determined by its terms. -/
theorem Canonical.eq_of_mem_iff {xs ys : List (Term f α)} (hxs : Canonical xs) (hys : Canonical ys)
    (h : ∀ t, t ∈ xs ↔ t ∈ ys) : xs = ys := by
  have hperm : xs.Perm ys := (List.perm_ext_iff_of_nodup hxs.nodup hys.nodup).mpr h
  apply hperm.eq_of_pairwise _ hxs.descending hys.descending
  intro s t _ _ hst hts
  exact absurd (UInt32.lt_trans hst hts) (UInt32.lt_irrefl _)

theorem coefficientsAt_termOf (power : UInt32) (value : α) :
    coefficientsAt power (termOf power value) = (termOf power value).map Term.coefficient := by
  rw [coefficientsAt, List.filter_eq_self.mpr]
  intro t ht
  exact beq_iff_eq.mpr ((mem_termOf.mp ht).2 ▸ rfl)

theorem coefficientsAt_termOf_of_ne {power other : UInt32} (h : other ≠ power)
    (value : α) : coefficientsAt other (termOf power value) = [] := by
  apply coefficientsAt_eq_nil
  intro t ht heq
  rw [(mem_termOf.mp ht).2] at heq
  exact h heq.symm

namespace Poly

/-- A polynomial has one coefficient at a power, or none if it is zero. -/
theorem coefficientsAt_terms (p : Poly f α) (power : UInt32) :
    coefficientsAt power p.terms = (termOf power (p.coefficient power)).map Term.coefficient := by
  obtain ⟨before, own, after, hterms, hbefore, hafter, hown, -⟩ := p.canonical.exists_split power
  rw [hterms, coefficientsAt_split hbefore hafter, hown]
  exact coefficientsAt_termOf power (p.coefficient power)

theorem coefficient_of_mem {p : Poly f α} {t : Term f α} (h : t ∈ p.terms) :
    p.coefficient t.power = t.coefficient := by
  have hmem : t.coefficient ∈ coefficientsAt t.power p.terms := mem_coefficientsAt.mpr h
  rw [p.coefficientsAt_terms, List.mem_map] at hmem
  obtain ⟨s, hs, hcoefficient⟩ := hmem
  rw [← hcoefficient, (mem_termOf.mp hs).2]

theorem mem_terms_iff {p : Poly f α} {t : Term f α} :
    t ∈ p.terms ↔ p.coefficient t.power = t.coefficient ∧ t.isZero = false := by
  constructor
  · intro h
    exact ⟨coefficient_of_mem h, p.canonical.nonzero t h⟩
  · intro ⟨hcoefficient, hnonzero⟩
    have hmem : t.coefficient ∈ coefficientsAt t.power p.terms := by
      rw [p.coefficientsAt_terms, hcoefficient]
      exact List.mem_map_of_mem (mem_termOf.mpr ⟨hnonzero, rfl⟩)
    exact mem_coefficientsAt.mp hmem

/-- A coefficient that is not stored reads as the zero of the type, and so does no other. -/
theorem coefficient_eq_zero {p : Poly f α} {power : UInt32}
    (h : Coefficient.isZero (p.coefficient power) = true) : p.coefficient power = 0 := by
  unfold coefficient readTerm at h ⊢
  split
  · rename_i index hfound
    rw [hfound] at h
    cases hget : p.terms[index]? with
    | none => rfl
    | some t =>
      have hnonzero : Coefficient.isZero t.coefficient = false :=
        p.canonical.nonzero t (List.mem_of_getElem? hget)
      dsimp only at h
      rw [hget, Option.map_some, Option.getD_some, hnonzero] at h
      cases h
  · rfl

/-- What is read at a power is the coefficient there, or zero. -/
theorem coefficient_eq_getD (p : Poly f α) (power : UInt32) :
    p.coefficient power = (coefficientsAt power p.terms).head?.getD 0 := by
  rw [p.coefficientsAt_terms, termOf]
  cases h : Coefficient.isZero (p.coefficient power) with
  | true => exact coefficient_eq_zero h
  | false => rfl

/-- A polynomial is determined by what is read at each power. -/
theorem ext_coefficient {p q : Poly f α}
    (h : ∀ power, p.coefficient power = q.coefficient power) : p = q := by
  apply Poly.ext
  apply p.canonical.eq_of_mem_iff q.canonical
  intro t
  rw [mem_terms_iff, mem_terms_iff, h]

/-- What is read after one coefficient was replaced. -/
theorem coefficient_setCoefficient (p : Poly f α) (power : UInt32) (value : α)
    (other : UInt32) :
    (p.setCoefficient power value).coefficient other =
      if other = power then if Coefficient.isZero value then 0 else value
      else p.coefficient other := by
  obtain ⟨before, own, after, hterms, hbefore, hafter, hown, hwrite⟩ :=
    p.canonical.exists_split power
  have hnew : (p.setCoefficient power value).terms = before ++ termOf power value ++ after :=
    hwrite value
  rw [coefficient_eq_getD, hnew]
  split
  · rename_i heq
    subst heq
    rw [coefficientsAt_split hbefore hafter, coefficientsAt_termOf, termOf]
    cases Coefficient.isZero value <;> rfl
  · rename_i hne
    rw [coefficient_eq_getD, hterms, hown]
    simp only [coefficientsAt_append, coefficientsAt_termOf_of_ne hne]

end Poly

section Canonicalize

variable [Add α]

/-- The canonical form has the sum of a power from left to right, unless it is zero. -/
theorem coefficientsAt_canonicalize (power : UInt32) (terms : List (Term f α)) :
    coefficientsAt power (canonicalize terms) =
      (leftSum (coefficientsAt power terms)).toList.filter fun c ↦ !Coefficient.isZero c := by
  calc
    coefficientsAt power (canonicalize terms)
      = (coefficientsAt power (mergeTerms (sortTerms terms))).filter
          fun c ↦ !Coefficient.isZero c := coefficientsAt_dropZeros ..
    _ = (leftSum (coefficientsAt power (sortTerms terms))).toList.filter
          fun c ↦ !Coefficient.isZero c := by
        rw [coefficientsAt_mergeTerms power (pairwise_sortTerms terms)]
    _ = (leftSum (coefficientsAt power terms)).toList.filter fun c ↦ !Coefficient.isZero c := by
        rw [coefficientsAt_sortTerms]

/-- The terms of a canonical form: at each power that occurs the sum of its coefficients from left
to right, unless it is zero. -/
theorem mem_canonicalize {terms : List (Term f α)} {t : Term f α} :
    t ∈ canonicalize terms ↔
      leftSum (coefficientsAt t.power terms) = some t.coefficient ∧ t.isZero = false := by
  have hmem : t.coefficient ∈ coefficientsAt t.power (canonicalize terms) ↔
      t ∈ canonicalize terms := mem_coefficientsAt
  rw [← hmem, coefficientsAt_canonicalize, List.mem_filter, Option.mem_toList,
    Bool.not_eq_true']
  rfl

/-- No power is invented. -/
theorem exists_mem_of_mem_canonicalize {terms : List (Term f α)} {t : Term f α}
    (h : t ∈ canonicalize terms) : ∃ s ∈ terms, s.power = t.power := by
  obtain ⟨hsum, -⟩ := mem_canonicalize.mp h
  cases hcoefficients : coefficientsAt t.power terms with
  | nil =>
    rw [hcoefficients] at hsum
    cases hsum
  | cons c rest =>
    have hmem : c ∈ coefficientsAt t.power terms := hcoefficients ▸ List.mem_cons_self
    exact ⟨⟨c, t.power⟩, mem_coefficientsAt.mp hmem, rfl⟩

end Canonicalize

/-- The sum of the coefficients at one power from left to right, beginning with the positive
zero. -/
def sumAt (power : UInt32) (terms : List (Term f)) : Binary f :=
  (coefficientsAt power terms).foldl (· + ·) 0

theorem sumAt_append (power : UInt32) (front back : List (Term f)) :
    sumAt power (front ++ back) =
      (coefficientsAt power back).foldl (· + ·) (sumAt power front) := by
  rw [sumAt, coefficientsAt_append, List.foldl_append, sumAt]

theorem noNegativeZero_sumAt (power : UInt32) (terms : List (Term f)) :
    Binary.NoNegativeZero (sumAt power terms) :=
  Binary.noNegativeZero_foldl Binary.noNegativeZero_zero _

theorem mem_canonicalize_iff_sumAt {terms : List (Term f)} {t : Term f} :
    t ∈ canonicalize terms ↔ sumAt t.power terms = t.coefficient ∧ t.isZero = false := by
  rw [mem_canonicalize]
  apply and_congr_left
  intro h
  exact Binary.leftSum_eq_some_iff h

/-- Equal sums at every power build the same list. -/
theorem canonicalize_congr {xs ys : List (Term f)} (h : ∀ power, sumAt power xs = sumAt power ys) :
    canonicalize xs = canonicalize ys := by
  apply (canonical_canonicalize xs).eq_of_mem_iff (canonical_canonicalize ys)
  intro t
  rw [mem_canonicalize_iff_sumAt, mem_canonicalize_iff_sumAt, h]

/-- The canonical form has the sum itself at each power. -/
@[simp]
theorem sumAt_canonicalize (power : UInt32) (terms : List (Term f)) :
    sumAt power (canonicalize terms) = sumAt power terms := by
  calc
    sumAt power (canonicalize terms)
      = ((leftSum (coefficientsAt power terms)).toList.filter fun c ↦ !c.isZero).foldl
          (· + ·) 0 := by
        rw [sumAt, coefficientsAt_canonicalize]
        rfl
    _ = (leftSum (coefficientsAt power terms)).toList.foldl (· + ·) 0 :=
      Binary.foldl_add_filter Binary.noNegativeZero_zero _
    _ = sumAt power terms := Binary.foldl_add_leftSum _

theorem sumAt_append_dropZeros (power : UInt32) (front back : List (Term f)) :
    sumAt power (front ++ dropZeros back) = sumAt power (front ++ back) := by
  calc
    sumAt power (front ++ dropZeros back)
      = ((coefficientsAt power back).filter fun c ↦ !c.isZero).foldl (· + ·)
          (sumAt power front) := by
        rw [sumAt_append, coefficientsAt_dropZeros]
        rfl
    _ = sumAt power (front ++ back) := by
        rw [Binary.foldl_add_filter (noNegativeZero_sumAt power front), sumAt_append]

/-- Terms may be brought into canonical form before others are added to them. -/
theorem canonicalize_append (front back : List (Term f)) :
    canonicalize (canonicalize front ++ back) = canonicalize (front ++ back) := by
  apply canonicalize_congr
  intro power
  rw [sumAt_append, sumAt_canonicalize, sumAt_append]

/-- Zeros among terms that are added do not matter. -/
theorem canonicalize_append_dropZeros (front back : List (Term f)) :
    canonicalize (front ++ dropZeros back) = canonicalize (front ++ back) :=
  canonicalize_congr fun power ↦ sumAt_append_dropZeros power front back

theorem sumAt_termOf (power : UInt32) (value : Binary f) :
    sumAt power (termOf power value) = if value.isZero then 0 else value := by
  rw [sumAt, coefficientsAt_termOf, termOf, Coefficient.isZero_binary]
  cases hvalue : value.isZero with
  | true => rfl
  | false => exact Binary.add_of_isZero_left Binary.isZero_zero hvalue

namespace Poly

/-- No coefficient reads as the negative zero. -/
theorem noNegativeZero_coefficient (p : Poly f) (power : UInt32) :
    Binary.NoNegativeZero (p.coefficient power) :=
  fun h ↦ coefficient_eq_zero h

/-- What is read at a power is the sum of the terms there. -/
@[simp]
theorem sumAt_terms (p : Poly f) (power : UInt32) :
    sumAt power p.terms = p.coefficient power := by
  have hsum : sumAt power p.terms = sumAt power (termOf power (p.coefficient power)) := by
    rw [sumAt, p.coefficientsAt_terms, sumAt, coefficientsAt_termOf]
  rw [hsum, sumAt_termOf]
  split
  · exact (p.noNegativeZero_coefficient power ‹_›).symm
  · rfl

theorem coefficient_ofTerms (terms : List (Term f)) (power : UInt32) :
    (ofTerms terms).coefficient power = sumAt power terms := by
  rw [← sumAt_terms, terms_ofTerms, sumAt_canonicalize]

/-- No sum has a power that its addends have not. -/
theorem toNat_degree_ofTerms_le {terms : List (Term f)} {bound : Nat}
    (h : ∀ t ∈ terms, t.power.toNat ≤ bound) : (ofTerms terms).degree.toNat ≤ bound := by
  apply toNat_degree_le
  intro t ht
  obtain ⟨s, hs, hpower⟩ := exists_mem_of_mem_canonicalize ht
  rw [← hpower]
  exact h s hs

end Poly

end FloatPolynomial
