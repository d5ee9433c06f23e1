import FloatPolynomial.Decimal.Basic
import Mathlib.Data.List.TakeWhile

/-!
# Numbers in Decimal Notation

A number is written with digits and at most one point, and at least one digit.  Its value is the
whole number that its digits form, divided by ten for every character after the point.  This is
what `Decimal.ofText?` reads, which looks for the point instead of counting points.
-/

namespace FloatPolynomial

namespace Decimal

/-- Digits and at most one point, and at least one digit. -/
structure IsNumber (text : List Char) : Prop where
  numeric : ∀ c ∈ text, c.isDigit = true ∨ c = '.'
  digit : ∃ c ∈ text, c.isDigit = true
  point : text.count '.' ≤ 1

/-- The decimal that a number denotes. -/
def ofNumber (text : List Char) : Decimal :=
  ⟨ofDigits (text.filter (·.isDigit)), -(((text.dropWhile (· != '.')).drop 1).length : Int)⟩

theorem count_point_eq_zero {digits : List Char} (h : ∀ c ∈ digits, c.isDigit = true) :
    digits.count '.' = 0 := by
  rw [List.count_eq_zero]
  intro hmem
  exact absurd (h _ hmem) (by decide)

theorem ne_point_of_isDigit {c : Char} (h : c.isDigit = true) : (c != '.') = true := by
  rw [bne_iff_ne]
  rintro rfl
  exact absurd h (by decide)

theorem isNumber_digits_iff {whole : List Char} (h : ∀ c ∈ whole, c.isDigit = true) :
    IsNumber whole ↔ whole ≠ [] := by
  constructor
  · rintro hnumber rfl
    obtain ⟨c, hc, -⟩ := hnumber.digit
    cases hc
  · intro hne
    obtain ⟨c, hc⟩ := List.exists_mem_of_ne_nil whole hne
    exact ⟨fun c hc ↦ Or.inl (h c hc), ⟨c, hc, h c hc⟩, by rw [count_point_eq_zero h]; decide⟩

theorem ofNumber_digits {whole : List Char} (h : ∀ c ∈ whole, c.isDigit = true) :
    ofNumber whole = ⟨ofDigits whole, 0⟩ := by
  have hdrop : whole.dropWhile (· != '.') = [] :=
    List.dropWhile_eq_nil_iff.mpr fun c hc ↦ ne_point_of_isDigit (h c hc)
  rw [ofNumber, hdrop, List.filter_eq_self.mpr h]
  rfl

theorem isNumber_point_iff {whole fraction : List Char} (h : ∀ c ∈ whole, c.isDigit = true) :
    IsNumber (whole ++ '.' :: fraction) ↔
      (∀ c ∈ fraction, c.isDigit = true) ∧ whole ++ fraction ≠ [] := by
  constructor
  · intro hnumber
    have hpoints := hnumber.point
    rw [List.count_append, count_point_eq_zero h, List.count_cons_self] at hpoints
    have hnone : '.' ∉ fraction := List.count_eq_zero.mp (by omega)
    constructor
    · intro c hc
      rcases hnumber.numeric c (by simp [hc]) with hdigit | rfl
      · exact hdigit
      · exact absurd hc hnone
    · intro hempty
      obtain ⟨rfl, rfl⟩ := List.append_eq_nil_iff.mp hempty
      obtain ⟨c, hc, hdigit⟩ := hnumber.digit
      obtain rfl : c = '.' := by simpa using hc
      exact absurd hdigit (by decide)
  · rintro ⟨hfraction, hne⟩
    have hdigits : ∀ c ∈ whole ++ fraction, c.isDigit = true := by
      intro c hc
      exact (List.mem_append.mp hc).elim (h c) (hfraction c)
    refine ⟨fun c hc ↦ ?_, ?_, ?_⟩
    · rcases List.mem_append.mp hc with hc | hc
      · exact Or.inl (h c hc)
      · rcases List.mem_cons.mp hc with rfl | hc
        · exact Or.inr rfl
        · exact Or.inl (hfraction c hc)
    · obtain ⟨c, hc⟩ := List.exists_mem_of_ne_nil _ hne
      refine ⟨c, ?_, hdigits c hc⟩
      simp only [List.mem_append, List.mem_cons] at hc ⊢
      exact hc.imp_right Or.inr
    · rw [List.count_append, count_point_eq_zero h, List.count_cons_self,
        count_point_eq_zero hfraction]

theorem ofNumber_point {whole fraction : List Char} (h : ∀ c ∈ whole, c.isDigit = true)
    (hfraction : ∀ c ∈ fraction, c.isDigit = true) :
    ofNumber (whole ++ '.' :: fraction) =
      ⟨ofDigits (whole ++ fraction), -(fraction.length : Int)⟩ := by
  have hdrop : (whole ++ '.' :: fraction).dropWhile (· != '.') = '.' :: fraction := by
    rw [List.dropWhile_append_of_pos fun c hc ↦ ne_point_of_isDigit (h c hc)]
    rfl
  have hfilter : (whole ++ '.' :: fraction).filter (·.isDigit) = whole ++ fraction := by
    rw [List.filter_append, List.filter_eq_self.mpr h, List.filter_cons_of_neg (by decide),
      List.filter_eq_self.mpr hfraction]
  rw [ofNumber, hdrop, hfilter]
  rfl

/-- A text is read if and only if it is a number, and then its value is read. -/
theorem ofText?_eq_some_iff {text : List Char} {d : Decimal} :
    ofText? text = some d ↔ IsNumber text ∧ d = ofNumber text := by
  have htext : text.takeWhile (·.isDigit) ++ text.dropWhile (·.isDigit) = text :=
    List.takeWhile_append_dropWhile
  have hwhole : ∀ c ∈ text.takeWhile (·.isDigit), c.isDigit = true :=
    fun c hc ↦ List.mem_takeWhile_imp hc
  have hstop := List.head?_dropWhile_not (·.isDigit) text
  unfold ofText?
  generalize text.takeWhile (·.isDigit) = whole at htext hwhole ⊢
  generalize text.dropWhile (·.isDigit) = tail at htext hstop ⊢
  subst htext
  cases tail with
  | nil =>
    rw [List.append_nil, isNumber_digits_iff hwhole, ofNumber_digits hwhole]
    change (if !(whole ++ []).isEmpty then some ⟨ofDigits (whole ++ []), 0⟩ else none) = some d ↔ _
    rw [List.append_nil, Option.ite_none_right_eq_some, Bool.not_eq_true', List.isEmpty_eq_false_iff,
      Option.some.injEq, eq_comm]
  | cons c fraction =>
    by_cases hpoint : c = '.'
    · subst hpoint
      change (if fraction.all (·.isDigit) && !(whole ++ fraction).isEmpty then
        some ⟨ofDigits (whole ++ fraction), -(fraction.length : Int)⟩ else none) = some d ↔ _
      rw [isNumber_point_iff hwhole, Option.ite_none_right_eq_some, Bool.and_eq_true,
        List.all_eq_true, Bool.not_eq_true', List.isEmpty_eq_false_iff, Option.some.injEq, eq_comm]
      apply and_congr_right
      intro hdigits
      rw [ofNumber_point hwhole hdigits.1]
    · have hnone : ¬IsNumber (whole ++ c :: fraction) := by
        intro hnumber
        rcases hnumber.numeric c (by simp) with hdigit | rfl
        · exact absurd (hstop.symm.trans hdigit) (by decide)
        · exact hpoint rfl
      have hpointed : (c == '.') = false := beq_eq_false_iff_ne.mpr hpoint
      dsimp only
      rw [hpointed, Bool.false_and, Bool.false_and, if_neg Bool.false_ne_true]
      exact iff_of_false (Option.some_ne_none d).symm fun h ↦ hnone h.1

end Decimal

end FloatPolynomial
