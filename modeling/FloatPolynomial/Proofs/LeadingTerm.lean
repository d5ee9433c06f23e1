import FloatPolynomial.Poly.Basic

/-!
# Leading Terms

The first term of a polynomial is the one whose power no other exceeds.  Hence the degree bounds
every power, and is bounded by whatever bounds them all.
-/

namespace FloatPolynomial

namespace Poly

variable {f : Format} {α : Type} [Zero α] [Coefficient f α] {p : Poly f α}

section Cons

variable {lead : Term f α} {rest : List (Term f α)}

theorem isZero_of_nil (h : p.terms = []) : p.isZero = true := by
  rw [isZero, h]
  rfl

theorem isZero_of_cons (h : p.terms = lead :: rest) : p.isZero = false := by
  rw [isZero, h]
  rfl

theorem leadingTerm?_of_cons (h : p.terms = lead :: rest) : p.leadingTerm? = some lead := by
  rw [leadingTerm?, h]
  rfl

theorem degree_of_leadingTerm? (h : p.leadingTerm? = some lead) : p.degree = lead.power := by
  rw [degree, h]
  rfl

theorem degree_of_cons (h : p.terms = lead :: rest) : p.degree = lead.power :=
  degree_of_leadingTerm? (leadingTerm?_of_cons h)

end Cons

variable {t : Term f α}

/-- The leading term is the one that no other exceeds. -/
theorem leadingTerm?_eq_some_iff :
    p.leadingTerm? = some t ↔ t ∈ p.terms ∧ ∀ s ∈ p.terms, s.power ≤ t.power := by
  have hdescending := p.canonical.descending
  rw [leadingTerm?]
  cases hterms : p.terms with
  | nil =>
    apply iff_of_false
    · exact Option.some_ne_none t ∘ Eq.symm
    · intro h
      exact List.not_mem_nil h.1
  | cons head rest =>
    rw [hterms, List.pairwise_cons] at hdescending
    rw [List.head?_cons, Option.some_inj]
    constructor
    · rintro rfl
      refine ⟨List.mem_cons_self, ?_⟩
      rw [List.forall_mem_cons]
      exact ⟨UInt32.le_refl _, fun s hs ↦ UInt32.le_of_lt (hdescending.1 s hs)⟩
    · rintro ⟨hmem, hle⟩
      rcases List.mem_cons.mp hmem with rfl | hrest
      · rfl
      · exact absurd (hle head List.mem_cons_self) (UInt32.not_le.mpr (hdescending.1 t hrest))

theorem exists_leadingTerm?_of_mem (h : t ∈ p.terms) : ∃ lead, p.leadingTerm? = some lead := by
  obtain ⟨lead, rest, hterms⟩ := List.exists_cons_of_ne_nil (List.ne_nil_of_mem h)
  exact ⟨lead, leadingTerm?_of_cons hterms⟩

theorem power_le_degree (h : t ∈ p.terms) : t.power ≤ p.degree := by
  obtain ⟨lead, hlead⟩ := exists_leadingTerm?_of_mem h
  rw [degree_of_leadingTerm? hlead]
  exact (leadingTerm?_eq_some_iff.mp hlead).2 t h

theorem toNat_power_le_degree (h : t ∈ p.terms) : t.power.toNat ≤ p.degree.toNat :=
  UInt32.le_iff_toNat_le.mp (power_le_degree h)

theorem toNat_degree_le {bound : Nat} (h : ∀ t ∈ p.terms, t.power.toNat ≤ bound) :
    p.degree.toNat ≤ bound := by
  cases hlead : p.leadingTerm? with
  | none =>
    rw [degree, hlead]
    exact Nat.zero_le bound
  | some lead =>
    rw [degree_of_leadingTerm? hlead]
    exact h lead (leadingTerm?_eq_some_iff.mp hlead).1

end Poly

end FloatPolynomial
