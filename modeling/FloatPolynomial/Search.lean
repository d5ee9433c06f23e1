/-!
# Binary Search

Searching an ordered list for a place, by halving the range in which it lies.  The list is given
by where each of its items stands from the place: before it, at it, or after it.  In a list of
strictly ordered items at most one stands at the place, and `search_spec`
says that the search ends there, or at the index where such an item belongs.
-/

namespace FloatPolynomial

/-- Where a search ends: at an item, or at the index where one would have to be inserted. -/
inductive Position where
  | found (index : Nat)
  | missing (index : Nat)
  deriving DecidableEq

section Search

variable {α : Type}

/-- Halves a range of `size` items from `base` on until one is left.  The upper half is kept
unless its first item stands after the place. -/
def narrow (standing : α → Ordering) (items : List α) (base size : Nat) : Nat :=
  if size ≤ 1 then base
  else
    let half := size / 2
    let after := items[base + half]?.any fun item ↦ standing item == .gt
    narrow standing items (if after then base else base + half) (size - half)
termination_by size

/-- Searches for a place, given how each item stands from it. -/
def search (standing : α → Ordering) (items : List α) : Position :=
  let base := narrow standing items 0 items.length
  match items[base]? with
  | none => .missing 0
  | some item =>
    match standing item with
    | .eq => .found base
    | .lt => .missing (base + 1)
    | .gt => .missing base

/-- The items stand strictly in order: all items in front of one that is not after the place are
before it. -/
def Ordered (standing : α → Ordering) (items : List α) : Prop :=
  items.Pairwise fun x y ↦ standing y ≠ .gt → standing x = .lt

/-- What a search knows about a range: it is not empty, the items in front of it are before the
place and the items behind it are after the place. -/
structure Encloses (standing : α → Ordering) (items : List α) (base size : Nat) : Prop where
  size_pos : 0 < size
  within : base + size ≤ items.length
  before : ∀ i item, items[i]? = some item → i < base → standing item = .lt
  after : ∀ i item, items[i]? = some item → base + size ≤ i → standing item = .gt

variable {standing : α → Ordering} {items : List α}

theorem Ordered.lt_of_ne_gt (h : Ordered standing items) {i j : Nat} {x y : α} (hij : i < j)
    (hx : items[i]? = some x) (hy : items[j]? = some y) (hne : standing y ≠ .gt) :
    standing x = .lt := by
  obtain ⟨hi, rfl⟩ := List.getElem?_eq_some_iff.mp hx
  obtain ⟨hj, rfl⟩ := List.getElem?_eq_some_iff.mp hy
  exact List.pairwise_iff_getElem.mp h i j hi hj hij hne

theorem Ordered.gt_of_gt (h : Ordered standing items) {i j : Nat} {x y : α} (hij : i ≤ j)
    (hx : items[i]? = some x) (hy : items[j]? = some y) (hgt : standing x = .gt) :
    standing y = .gt := by
  rcases Nat.eq_or_lt_of_le hij with rfl | hlt
  · rw [hx] at hy
    exact Option.some.inj hy ▸ hgt
  · refine Decidable.byContradiction fun hne ↦ ?_
    have hbefore := h.lt_of_ne_gt hlt hx hy hne
    rw [hgt] at hbefore
    cases hbefore

/-- Halving keeps the place enclosed, until the range is a single item. -/
theorem encloses_narrow (h : Ordered standing items) {base size : Nat}
    (henclosed : Encloses standing items base size) :
    Encloses standing items (narrow standing items base size) 1 := by
  fun_induction narrow standing items base size with
  | case1 base size hle =>
    have hone : size = 1 := Nat.le_antisymm hle henclosed.size_pos
    exact hone ▸ henclosed
  | case2 base size hlt half after ih =>
    have hhalf : half = size / 2 := rfl
    have hwithin := henclosed.within
    have hmid : base + half < items.length := by omega
    have hget : items[base + half]? = some items[base + half] := List.getElem?_eq_getElem hmid
    have hafter : after = true ↔ standing items[base + half] = .gt := by
      simp only [after, hget, Option.any_some, beq_iff_eq]
    apply ih
    split
    · refine ⟨by omega, by omega, henclosed.before, fun i item hitem hle ↦ ?_⟩
      exact h.gt_of_gt (by omega) hget hitem (hafter.mp ‹_›)
    · refine ⟨by omega, by omega, fun i item hitem hlt ↦ ?_, fun i item hitem hle ↦ ?_⟩
      · exact h.lt_of_ne_gt hlt hitem hget fun hgt ↦ ‹¬_› (hafter.mpr hgt)
      · exact henclosed.after i item hitem (by omega)

theorem forall_mem_take {property : α → Prop} {count : Nat}
    (h : ∀ i item, items[i]? = some item → i < count → property item) :
    ∀ item ∈ items.take count, property item := by
  intro item hitem
  obtain ⟨i, hi, rfl⟩ := List.mem_take_iff_getElem.mp hitem
  exact h i _ (List.getElem?_eq_getElem (by omega)) (by omega)

theorem forall_mem_drop {property : α → Prop} {count : Nat}
    (h : ∀ i item, items[i]? = some item → count ≤ i → property item) :
    ∀ item ∈ items.drop count, property item := by
  intro item hitem
  obtain ⟨i, hi, rfl⟩ := List.mem_drop_iff_getElem.mp hitem
  exact h (count + i) _ (List.getElem?_eq_getElem (by omega)) (by omega)

/-- Where a search ends.  The items in front of the index are before the place and those behind it
are after the place; an item that is found stands at the index itself. -/
theorem search_spec (h : Ordered standing items) :
    ∃ before own after, items = before ++ own ++ after ∧
      (∀ item ∈ before, standing item = .lt) ∧ (∀ item ∈ after, standing item = .gt) ∧
      ((own = [] ∧ search standing items = .missing before.length) ∨
        ∃ item, own = [item] ∧ standing item = .eq ∧
          search standing items = .found before.length) := by
  rcases Nat.eq_zero_or_pos items.length with hzero | hpos
  · rw [List.length_eq_zero_iff] at hzero
    subst hzero
    exact ⟨[], [], [], rfl, by simp, by simp, .inl ⟨rfl, by simp [search]⟩⟩
  have hstart : Encloses standing items 0 items.length := by
    refine ⟨hpos, Nat.le_of_eq (Nat.zero_add _), fun i item _ hlt ↦ absurd hlt (Nat.not_lt_zero i),
      fun i item hitem hle ↦ ?_⟩
    have hlt := (List.getElem?_eq_some_iff.mp hitem).1
    omega
  obtain ⟨-, hwithin, hbefore, hafter⟩ := encloses_narrow h hstart
  generalize hbase : narrow standing items 0 items.length = base at hwithin hbefore hafter
  have hget : items[base]? = some items[base] := List.getElem?_eq_getElem hwithin
  cases hstanding : standing items[base] with
  | lt =>
    refine ⟨items.take (base + 1), [], items.drop (base + 1), by simp, forall_mem_take ?_,
      forall_mem_drop hafter, .inl ⟨rfl, ?_⟩⟩
    · intro i item hitem hi
      rcases Nat.lt_or_eq_of_le (Nat.le_of_lt_succ hi) with hlt | rfl
      · exact hbefore i item hitem hlt
      · rw [hget] at hitem
        exact Option.some.inj hitem ▸ hstanding
    · rw [List.length_take_of_le hwithin]
      simp only [search, hbase, hget, hstanding]
  | eq =>
    refine ⟨items.take base, [items[base]], items.drop (base + 1), by simp,
      forall_mem_take hbefore, forall_mem_drop hafter, .inr ⟨_, rfl, hstanding, ?_⟩⟩
    rw [List.length_take_of_le (Nat.le_of_succ_le hwithin)]
    simp only [search, hbase, hget, hstanding]
  | gt =>
    refine ⟨items.take base, [], items.drop base, by simp, forall_mem_take hbefore,
      forall_mem_drop fun i item hitem hi ↦ h.gt_of_gt hi hget hitem hstanding, .inl ⟨rfl, ?_⟩⟩
    rw [List.length_take_of_le (Nat.le_of_succ_le hwithin)]
    simp only [search, hbase, hget, hstanding]

end Search

end FloatPolynomial
