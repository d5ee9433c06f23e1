import Mathlib.Data.Set.Card
import FloatPolynomial.Proofs.Coefficients

/-!
# Runs of Writes

Replacing single coefficients, over any number of writes.  What a polynomial holds is a map from
powers to coefficients, zero almost everywhere, and `Holds` says that a list of terms lists such a
map from the highest power on.  The coefficients may be words, so that of a non-number the sign bit
and the payload are kept.  One write changes the map at one power, and a zero of either sign that
is written reads back as the positive zero; so after a run each power reads as the last value that
was written to it.

The terms of the result are determined by that map alone.  This gives its number of terms, its
degree and its leading term, and shows which changes to a run make no difference: writes to
different powers may trade places, and a write that is overwritten later may be left out.
-/

namespace FloatPolynomial

variable {f : Format} {α : Type}

/-- A later write to the same power hides an earlier one. -/
theorem getLast?_coefficientsAt_overwritten (front : List (Term f α)) {t : Term f α}
    {back : List (Term f α)} (h : ∃ s ∈ back, s.power = t.power) (power : UInt32) :
    (coefficientsAt power (front ++ t :: back)).getLast? =
      (coefficientsAt power (front ++ back)).getLast? := by
  rw [coefficientsAt_append, coefficientsAt_append, coefficientsAt_cons]
  split
  · rename_i hpower
    obtain ⟨s, hs, hsame⟩ := h
    have hmem : s.coefficient ∈ coefficientsAt power back := by
      apply mem_coefficientsAt.mpr
      rw [← hpower, ← hsame]
      exact hs
    have hne : coefficientsAt power back ≠ [] := List.ne_nil_of_mem hmem
    rw [List.getLast?_append_of_ne_nil _ (List.cons_ne_nil _ _),
      List.getLast?_append_of_ne_nil _ hne, List.getLast?_cons_of_ne_nil hne]
  · rfl

variable [Zero α] [Coefficient f α]

/-- The powers at which a map is not zero. -/
def nonzeroPowers (map : UInt32 → α) : Set UInt32 :=
  {power | Coefficient.isZero (map power) = false}

/-- The terms are those of the map, one for each power at which it is not zero, in descending
order. -/
structure Holds (terms : List (Term f α)) (map : UInt32 → α) : Prop where
  descending : terms.Pairwise fun s t ↦ t.power < s.power
  mem_iff : ∀ t, t ∈ terms ↔ t.power ∈ nonzeroPowers map ∧ map t.power = t.coefficient

/-- A map after a run of writes, each of which puts the coefficient of a term at its power. -/
def written (map : UInt32 → α) (writes : List (Term f α)) (power : UInt32) : α :=
  match (coefficientsAt power writes).getLast? with
  | some value => if Coefficient.isZero value then 0 else value
  | none => map power

theorem written_append_singleton (map : UInt32 → α) (writes : List (Term f α)) (t : Term f α)
    (power : UInt32) :
    written map (writes ++ [t]) power =
      if power = t.power then if Coefficient.isZero t.coefficient then 0 else t.coefficient
      else written map writes power := by
  rw [written, coefficientsAt_append, coefficientsAt_cons]
  by_cases h : t.power = power
  · rw [if_pos h, if_pos h.symm, coefficientsAt_nil, List.getLast?_concat]
  · rw [if_neg h, if_neg (Ne.symm h), coefficientsAt_nil, List.append_nil, written]

/-- Only the last value that is written to each power counts. -/
theorem written_congr (map : UInt32 → α) {writes others : List (Term f α)}
    (h : ∀ power, (coefficientsAt power writes).getLast? = (coefficientsAt power others).getLast?) :
    written map writes = written map others := by
  funext power
  rw [written, written, h]

namespace Poly

theorem holds_coefficient (p : Poly f α) : Holds p.terms p.coefficient where
  descending := p.canonical.descending
  mem_iff t := by
    rw [mem_terms_iff, and_comm]
    apply and_congr_left
    intro hcoefficient
    rw [nonzeroPowers, Set.mem_ofPred_eq, hcoefficient, Term.isZero]

theorem mem_nonzeroPowers_iff {p : Poly f α} {power : UInt32} :
    power ∈ nonzeroPowers p.coefficient ↔ ∃ t ∈ p.terms, t.power = power := by
  constructor
  · intro h
    exact ⟨⟨p.coefficient power, power⟩, (p.holds_coefficient.mem_iff _).mpr ⟨h, rfl⟩, rfl⟩
  · rintro ⟨t, ht, rfl⟩
    exact ((p.holds_coefficient.mem_iff t).mp ht).1

/-- There are as many terms as powers at which something other than zero is read. -/
theorem length_terms (p : Poly f α) : p.terms.length = (nonzeroPowers p.coefficient).ncard := by
  have hset : nonzeroPowers p.coefficient = ((p.terms.map Term.power).toFinset : Set UInt32) := by
    ext power
    rw [Finset.mem_coe, List.mem_toFinset, List.mem_map, mem_nonzeroPowers_iff]
  have hnodup : (p.terms.map Term.power).Nodup := by
    apply List.pairwise_map.mpr
    apply p.canonical.descending.imp
    intro s t hlt
    exact (UInt32.ne_of_lt hlt).symm
  rw [hset, Set.ncard_coe_finset, List.toFinset_card_of_nodup hnodup, List.length_map]

/-- The leading term stands at the greatest power at which something other than zero is read. -/
theorem leadingTerm?_eq_some_iff_isGreatest {p : Poly f α} {t : Term f α} :
    p.leadingTerm? = some t ↔
      IsGreatest (nonzeroPowers p.coefficient) t.power ∧ p.coefficient t.power = t.coefficient := by
  have hbound : t.power ∈ upperBounds (nonzeroPowers p.coefficient) ↔
      ∀ s ∈ p.terms, s.power ≤ t.power := by
    simp only [upperBounds, Set.mem_ofPred_eq, mem_nonzeroPowers_iff]
    constructor
    · intro h s hs
      exact h ⟨s, hs, rfl⟩
    · rintro h _ ⟨s, hs, rfl⟩
      exact h s hs
  rw [leadingTerm?_eq_some_iff, p.holds_coefficient.mem_iff, IsGreatest, hbound]
  exact and_right_comm

theorem isGreatest_degree {p : Poly f α} (h : (nonzeroPowers p.coefficient).Nonempty) :
    IsGreatest (nonzeroPowers p.coefficient) p.degree := by
  obtain ⟨power, hpower⟩ := h
  obtain ⟨t, ht, -⟩ := mem_nonzeroPowers_iff.mp hpower
  obtain ⟨lead, hlead⟩ := exists_leadingTerm?_of_mem ht
  rw [degree_of_leadingTerm? hlead]
  exact (leadingTerm?_eq_some_iff_isGreatest.mp hlead).1

theorem degree_eq_zero {p : Poly f α} (h : nonzeroPowers p.coefficient = ∅) : p.degree = 0 := by
  have hterms : p.terms = [] := by
    apply List.eq_nil_of_length_eq_zero
    rw [p.length_terms, h, Set.ncard_empty]
  rw [degree, leadingTerm?, hterms]
  rfl

/-- The polynomial after a run of writes. -/
def writeAll (p : Poly f α) (writes : List (Term f α)) : Poly f α :=
  writes.foldl (fun q t ↦ q.setCoefficient t.power t.coefficient) p

theorem writeAll_append_singleton (p : Poly f α) (writes : List (Term f α)) (t : Term f α) :
    p.writeAll (writes ++ [t]) = (p.writeAll writes).setCoefficient t.power t.coefficient := by
  rw [writeAll, List.foldl_concat, writeAll]

/-- Over a run, reading follows the map. -/
theorem coefficient_writeAll (p : Poly f α) (writes : List (Term f α)) :
    (p.writeAll writes).coefficient = written p.coefficient writes := by
  induction writes using List.reverseRecOn with
  | nil => rfl
  | append_singleton writes t ih =>
    funext power
    rw [writeAll_append_singleton, coefficient_setCoefficient, ih, written_append_singleton]

theorem writeAll_congr (p : Poly f α) {writes others : List (Term f α)}
    (h : ∀ power, (coefficientsAt power writes).getLast? = (coefficientsAt power others).getLast?) :
    p.writeAll writes = p.writeAll others := by
  apply ext_coefficient
  intro power
  rw [coefficient_writeAll, coefficient_writeAll, written_congr p.coefficient h]

/-- After a run of writes every power reads as the last value written to it, or as before if there
is none, and the terms, their number, the degree and the leading term are those of that map.  Runs
that write the same values to each power in the same order have the same result, and so has a run
without a write that is overwritten.  Coefficients that are words are read back bit for bit. -/
theorem writeAll_map (p : Poly f α) (writes : List (Term f α)) :
    (∀ power, (p.writeAll writes).coefficient power = written p.coefficient writes power) ∧
    Holds (p.writeAll writes).terms (written p.coefficient writes) ∧
    (p.writeAll writes).terms.length = (nonzeroPowers (written p.coefficient writes)).ncard ∧
    ((nonzeroPowers (written p.coefficient writes)).Nonempty →
      IsGreatest (nonzeroPowers (written p.coefficient writes)) (p.writeAll writes).degree) ∧
    (nonzeroPowers (written p.coefficient writes) = ∅ → (p.writeAll writes).degree = 0) ∧
    (∀ t, (p.writeAll writes).leadingTerm? = some t ↔
      IsGreatest (nonzeroPowers (written p.coefficient writes)) t.power ∧
        written p.coefficient writes t.power = t.coefficient) ∧
    (∀ others, (∀ power, coefficientsAt power others = coefficientsAt power writes) →
      p.writeAll others = p.writeAll writes) ∧
    ∀ front t back, writes = front ++ t :: back → (∃ s ∈ back, s.power = t.power) →
      p.writeAll (front ++ back) = p.writeAll writes := by
  have hmap := p.coefficient_writeAll writes
  refine ⟨congrFun hmap, ?_⟩
  rw [← hmap]
  refine ⟨holds_coefficient _, length_terms _, isGreatest_degree, degree_eq_zero,
    fun t ↦ leadingTerm?_eq_some_iff_isGreatest, ?_, ?_⟩
  · intro others hsame
    apply writeAll_congr
    intro power
    rw [hsame]
  · rintro front t back rfl hlater
    apply writeAll_congr
    intro power
    exact (getLast?_coefficientsAt_overwritten front hlater power).symm

/-- The constant coefficient is written twice, as a non-number and as a negative zero, and the
coefficient of `x` in between as a non-number with a sign and a payload, which are read back. -/
theorem writeAll_map_constant_twice :
    ∃ p : Poly .single (Word .single), ∃ writes others : List (Term .single (Word .single)),
      p.terms = [⟨⟨0x7fc00001#32⟩, 2⟩] ∧
      writes = [⟨⟨0x7fc00000#32⟩, 0⟩, ⟨⟨0xffc00002#32⟩, 1⟩, ⟨⟨0x80000000#32⟩, 0⟩] ∧
      others = [⟨⟨0xffc00002#32⟩, 1⟩, ⟨⟨0x7fc00000#32⟩, 0⟩, ⟨⟨0x80000000#32⟩, 0⟩] ∧
      (p.writeAll writes).coefficient 0 = 0 ∧
      (p.writeAll writes).coefficient 1 = ⟨0xffc00002#32⟩ ∧
      IsGreatest (nonzeroPowers (written p.coefficient writes)) (p.writeAll writes).degree ∧
      p.writeAll others = p.writeAll writes ∧
      p.writeAll [⟨⟨0xffc00002#32⟩, 1⟩, ⟨⟨0x80000000#32⟩, 0⟩] = p.writeAll writes := by
  let p : Poly .single (Word .single) :=
    ⟨[⟨⟨0x7fc00001#32⟩, 2⟩], by decide +kernel, by decide +kernel⟩
  let writes : List (Term .single (Word .single)) :=
    [⟨⟨0x7fc00000#32⟩, 0⟩, ⟨⟨0xffc00002#32⟩, 1⟩, ⟨⟨0x80000000#32⟩, 0⟩]
  let others : List (Term .single (Word .single)) :=
    [⟨⟨0xffc00002#32⟩, 1⟩, ⟨⟨0x7fc00000#32⟩, 0⟩, ⟨⟨0x80000000#32⟩, 0⟩]
  obtain ⟨hread, -, -, hgreatest, -, -, hreorder, hoverwritten⟩ := writeAll_map p writes
  have hsame : ∀ power, coefficientsAt power others = coefficientsAt power writes := by
    intro power
    simp only [others, writes, coefficientsAt_cons]
    by_cases hzero : (0 : UInt32) = power
    · subst hzero
      rfl
    · simp only [if_neg hzero]
  have hnonempty : (nonzeroPowers (written p.coefficient writes)).Nonempty := by
    refine ⟨1, ?_⟩
    rw [nonzeroPowers, Set.mem_ofPred_eq]
    decide +kernel
  refine ⟨p, writes, others, rfl, rfl, rfl, ?_, ?_, hgreatest hnonempty,
    hreorder others hsame, ?_⟩
  · rw [hread]
    decide +kernel
  · rw [hread]
    decide +kernel
  · exact hoverwritten [] ⟨⟨0x7fc00000#32⟩, 0⟩
      [⟨⟨0xffc00002#32⟩, 1⟩, ⟨⟨0x80000000#32⟩, 0⟩] rfl ⟨⟨⟨0x80000000#32⟩, 0⟩, by simp, rfl⟩

end Poly

end FloatPolynomial
