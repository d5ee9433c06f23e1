import FloatPolynomial.Decimal.OfBinary
import FloatPolynomial.Proofs.Decimal.Nearest

/-!
# The Shortest Decimal Reads Back

Every decimal that the search accepts was checked to round to the number, and the finest grid,
where the search ends at the latest, has the number itself among its points.
-/

namespace FloatPolynomial

namespace Decimal

variable {f : Format} {units : Nat}

theorem readsBack_iff {d : Decimal} (h : f.Representable units) :
    readsBack f units d = true ↔ d.nearest f false = .finite false units h := by
  rw [readsBack, beq_iff_eq, toBinary_eq_nearest, Binary.ofUnits, dif_pos h]

/-- On the finest grid a number is its own neighbour. -/
theorem readsBack_exact (h : f.Representable units) :
    readsBack f units (onGrid f 0 (units * 5 ^ f.scale)) = true := by
  have hnone : ((0 : Nat) - f.scale : Int).toNat = 0 := by omega
  have hplaces : (-((0 : Nat) - f.scale : Int)).toNat = f.scale := by omega
  rw [readsBack_iff h, onGrid, nearest]
  dsimp only
  rw [hnone, hplaces, Nat.pow_zero, Nat.mul_one, Nat.mul_assoc, ← Nat.mul_pow]
  exact Binary.round_mul false h (Nat.pow_pos (by decide))

theorem readsBack_neighbour? {tie : Tie} {level : Nat} {d : Decimal}
    (h : neighbour? f tie units level = some d) : readsBack f units d = true :=
  List.find?_some h

/-- By induction on the grids that are left. -/
theorem readsBack_shortestFrom (h : f.Representable units) (tie : Tie) (level : Nat) :
    readsBack f units (shortestFrom f tie units level) = true := by
  induction level with
  | zero => exact readsBack_exact h
  | succ level ih =>
    rw [shortestFrom]
    split
    · exact readsBack_neighbour? ‹_›
    · exact ih

/-- The shortest decimal of a number is rounded to the number. -/
theorem nearest_shortest (h : f.Representable units) (tie : Tie) :
    (shortest f tie units).nearest f false = .finite false units h := by
  rw [← readsBack_iff h, shortest]
  split
  · subst units
    rw [readsBack_iff h, nearest, Nat.zero_mul, Nat.zero_mul]
    exact Binary.round_zero false (Nat.pow_pos (by decide))
  · exact readsBack_shortestFrom h tie _

/-- The shortest decimal of a number other than zero is not zero. -/
theorem significand_shortest_pos (h : f.Representable units) (tie : Tie) (hpos : 0 < units) :
    0 < (shortest f tie units).significand := by
  refine Nat.pos_of_ne_zero fun hzero ↦ ?_
  have hnearest := nearest_shortest h tie
  rw [nearest, hzero, Nat.zero_mul, Nat.zero_mul,
    Binary.round_zero false (Nat.pow_pos (by decide))] at hnearest
  obtain ⟨-, rfl⟩ := Binary.finite.inj hnearest
  exact Nat.lt_irrefl 0 hpos

/-- A shortest decimal that is zero has no exponent. -/
theorem exponent_shortest_of_zero (h : f.Representable units) (tie : Tie)
    (hzero : (shortest f tie units).significand = 0) : (shortest f tie units).exponent = 0 := by
  have hunits : units = 0 := by
    refine Decidable.byContradiction fun hne ↦ ?_
    exact Nat.ne_of_gt (significand_shortest_pos h tie (Nat.pos_of_ne_zero hne)) hzero
  rw [shortest, if_pos hunits]

end Decimal

end FloatPolynomial
