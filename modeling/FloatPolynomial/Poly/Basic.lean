import FloatPolynomial.Canonical
import FloatPolynomial.Search

/-!
# Sparse Polynomials

A polynomial in one variable is its canonical list of terms, so that two polynomials with the same
coefficients are equal.  This module builds polynomials from any list of terms, and reads and
replaces single coefficients, which it finds by binary search.  Coefficients are numbers, or words
that stand for numbers.
-/

namespace FloatPolynomial

variable {f : Format} {α : Type}

section SingleTerm

/-- Where a term stands from the place of a power, in the order of descending powers. -/
def Term.standing (power : UInt32) (t : Term f α) : Ordering :=
  compare power t.power

theorem ordered_standing {terms : List (Term f α)}
    (h : terms.Pairwise fun s t ↦ t.power < s.power) (power : UInt32) :
    Ordered (Term.standing power) terms := by
  refine h.imp fun {s t} hlt hne ↦ Std.compare_eq_lt.mpr ?_
  have hle : power ≤ t.power := UInt32.not_lt.mp fun hgt ↦ hne (Std.compare_eq_gt.mpr hgt)
  exact UInt32.lt_of_le_of_lt hle hlt

theorem insertIdx_length_append (before after : List (Term f α)) (t : Term f α) :
    (before ++ after).insertIdx before.length t = before ++ t :: after := by
  induction before with
  | nil => rfl
  | cons s rest ih => exact congrArg (s :: ·) ih

/-- The coefficient at a power in a list of descending powers; zero where there is no term. -/
def readTerm [Zero α] (power : UInt32) (terms : List (Term f α)) : α :=
  match search (Term.standing power) terms with
  | .found index => (terms[index]?.map Term.coefficient).getD 0
  | .missing _ => 0

variable [Zero α] [Coefficient f α]

/-- Writes a coefficient into a list of descending powers, at the place of its power.  Writing a
zero removes the term. -/
def writeTerm (power : UInt32) (value : α) (terms : List (Term f α)) : List (Term f α) :=
  match search (Term.standing power) terms with
  | .found index =>
    if Coefficient.isZero value then terms.eraseIdx index
    else terms.modify index fun t ↦ { t with coefficient := value }
  | .missing index => if Coefficient.isZero value then terms else terms.insertIdx index ⟨value, power⟩

/-- The term of a coefficient, if it is not zero. -/
def termOf (power : UInt32) (value : α) : List (Term f α) :=
  if Coefficient.isZero value then [] else [⟨value, power⟩]

theorem mem_termOf {power : UInt32} {value : α} {t : Term f α} :
    t ∈ termOf power value ↔ Coefficient.isZero value = false ∧ t = ⟨value, power⟩ := by
  cases h : Coefficient.isZero value <;> simp [termOf, h]

theorem pairwise_termOf (relation : Term f α → Term f α → Prop) (power : UInt32) (value : α) :
    (termOf power value).Pairwise relation := by
  unfold termOf
  split <;> simp

/-- The place of a power in a canonical list, and what is read and written there. -/
theorem Canonical.exists_split {terms : List (Term f α)} (h : Canonical terms) (power : UInt32) :
    ∃ before own after, terms = before ++ own ++ after ∧
      (∀ t ∈ before, power < t.power) ∧ (∀ t ∈ after, t.power < power) ∧
      own = termOf power (readTerm power terms) ∧
      ∀ value, writeTerm power value terms = before ++ termOf power value ++ after := by
  obtain ⟨before, own, after, rfl, hbefore, hafter, hsearch⟩ :=
    search_spec (ordered_standing h.descending power)
  refine ⟨before, own, after, rfl, fun t ht ↦ Std.compare_eq_lt.mp (hbefore t ht),
    fun t ht ↦ Std.compare_eq_gt.mp (hafter t ht), ?_⟩
  rcases hsearch with ⟨rfl, hsearch⟩ | ⟨t, rfl, ht, hsearch⟩
  · refine ⟨?_, fun value ↦ ?_⟩
    · simp only [readTerm, hsearch, termOf, Coefficient.isZero_zero, if_pos]
    · rw [writeTerm, hsearch, termOf]
      dsimp only
      split
      · rfl
      · rw [List.append_nil, insertIdx_length_append, List.append_assoc, List.singleton_append]
  · obtain rfl : power = t.power := Std.compare_eq_iff_eq.mp ht
    have hnonzero : Coefficient.isZero t.coefficient = false := h.nonzero t (by simp)
    have hget : (before ++ [t] ++ after)[before.length]? = some t := by simp
    refine ⟨?_, fun value ↦ ?_⟩
    · simp only [readTerm, hsearch, hget, Option.map_some, Option.getD_some, termOf, hnonzero]
      rfl
    · rw [writeTerm, hsearch, termOf]
      dsimp only
      split
      · simp [List.eraseIdx_append_of_length_le]
      · simp [List.modify_eq_take_drop]

/-- A term at the place of its power keeps a list canonical. -/
theorem canonical_writeTerm {terms : List (Term f α)} (h : Canonical terms) (power : UInt32)
    (value : α) : Canonical (writeTerm power value terms) := by
  obtain ⟨before, own, after, rfl, hbefore, hafter, -, hwrite⟩ := h.exists_split power
  obtain ⟨hfront, hback, hacross⟩ := List.pairwise_append.mp h.descending
  rw [hwrite]
  constructor
  · refine List.pairwise_append.mpr ⟨List.pairwise_append.mpr
      ⟨(List.pairwise_append.mp hfront).1, pairwise_termOf .., fun s hs t ht ↦ ?_⟩, hback,
      fun s hs t ht ↦ ?_⟩
    · obtain ⟨-, rfl⟩ := mem_termOf.mp ht
      exact hbefore s hs
    · rcases List.mem_append.mp hs with hold | hnew
      · exact hacross s (List.mem_append_left _ hold) t ht
      · obtain ⟨-, rfl⟩ := mem_termOf.mp hnew
        exact hafter t ht
  · intro t ht
    simp only [List.mem_append, mem_termOf] at ht
    rcases ht with (hold | ⟨hvalue, rfl⟩) | hold
    · exact h.nonzero t (by simp [hold])
    · exact hvalue
    · exact h.nonzero t (by simp [hold])

end SingleTerm

theorem termOf_eq (power : UInt32) (value : Binary f) :
    termOf power value = if value.isZero then [] else [⟨value, power⟩] := rfl

/-- A polynomial in one variable with coefficients of format `f`, highest power first. -/
structure Poly (f : Format) (α : Type := Binary f) [Zero α] [Coefficient f α] where
  terms : List (Term f α)
  canonical : Canonical terms

namespace Poly

section Stored

variable [Zero α] [Coefficient f α]

@[ext]
theorem ext {p q : Poly f α} (h : p.terms = q.terms) : p = q := by
  cases p
  cases q
  cases h
  rfl

instance [DecidableEq α] : DecidableEq (Poly f α) := fun p q ↦
  decidable_of_iff (p.terms = q.terms) ⟨ext, congrArg terms⟩

instance : Zero (Poly f α) := ⟨⟨[], List.Pairwise.nil, fun _ h ↦ nomatch h⟩⟩

instance : Inhabited (Poly f α) := ⟨0⟩

@[simp]
theorem terms_zero : (0 : Poly f α).terms = [] := rfl

/-- The polynomial with the numbers that the coefficients stand for. -/
def number (p : Poly f α) : Poly f :=
  ⟨p.terms.map Term.number, canonical_number_iff.mpr p.canonical⟩

@[simp]
theorem terms_number (p : Poly f α) : p.number.terms = p.terms.map Term.number := rfl

/-- Whether the polynomial has no terms. -/
def isZero (p : Poly f α) : Bool :=
  p.terms.isEmpty

/-- The term of the highest power, if any. -/
def leadingTerm? (p : Poly f α) : Option (Term f α) :=
  p.terms.head?

/-- The highest power; zero for the zero polynomial. -/
def degree (p : Poly f α) : UInt32 :=
  (p.leadingTerm?.map Term.power).getD 0

/-- The coefficient at a power; zero where the polynomial has no term. -/
def coefficient (p : Poly f α) (power : UInt32) : α :=
  readTerm power p.terms

/-- The polynomial with one coefficient replaced. -/
def setCoefficient (p : Poly f α) (power : UInt32) (value : α) : Poly f α :=
  ⟨writeTerm power value p.terms, canonical_writeTerm p.canonical power value⟩

variable [Add α]

/-- The polynomial with the given terms, in any order and with any repetitions; coefficients of
one power are added from left to right. -/
def ofTerms (terms : List (Term f α)) : Poly f α :=
  ⟨canonicalize terms, canonical_canonicalize terms⟩

@[simp]
theorem terms_ofTerms (terms : List (Term f α)) : (ofTerms terms).terms = canonicalize terms := rfl

@[simp]
theorem ofTerms_terms (p : Poly f α) : ofTerms p.terms = p :=
  ext (canonicalize_eq_self p.canonical)

theorem ofTerms_nil : ofTerms ([] : List (Term f α)) = 0 :=
  ofTerms_terms 0

end Stored

/-- The constant polynomial `c`. -/
def constant (c : Binary f) : Poly f :=
  ofTerms [⟨c, 0⟩]

instance : One (Poly f) := ⟨constant 1⟩

theorem one_def : (1 : Poly f) = constant 1 := rfl

/-- Whether the polynomial is the constant one. -/
def isOne (p : Poly f) : Bool :=
  match p.terms with
  | [t] => t.power == 0 && t.coefficient.isOne
  | _ => false

/-- Numerical equality, term by term. -/
def equal (p q : Poly f) : Bool :=
  p.terms.length == q.terms.length && (p.terms.zip q.terms).all fun (s, t) ↦ s.equal t

end Poly

end FloatPolynomial
