import FloatPolynomial.Decimal.Basic

/-!
# Decimals of a Binary Number

A number of units is exactly a decimal with `scale` digits after the point.  From it come the two
decimals that are written: the one with a given number of places, and the shortest one that still
rounds to the number.

The shortest decimal is searched for on grids of ever finer steps.  On each grid only the two
neighbours of the number can round to it if any point does, so the first grid with such a
neighbour has the fewest digits; of two neighbours the nearer is taken.
-/

namespace FloatPolynomial

namespace Decimal

/-- The decimal with `places` digits after the point that is nearest to a number of units; a half
goes to the even neighbour. -/
def fixed (f : Format) (places units : Nat) : Decimal :=
  ⟨nearestQuotient (units * 10 ^ places) (2 ^ f.scale), -(places : Int)⟩

/-- Which of two neighbours is taken when the number lies exactly between them. -/
inductive Tie where
  | up
  | even
  deriving DecidableEq

/-- Whether a decimal rounds to a number of units. -/
def readsBack (f : Format) (units : Nat) (d : Decimal) : Bool :=
  d.toBinary f false == Binary.ofUnits f false units

/-- The `level`-th grid, counted from the finest: its step is `10 ^ (level - scale)`. -/
def onGrid (f : Format) (level significand : Nat) : Decimal :=
  ⟨significand, (level : Int) - f.scale⟩

/-- The neighbour on a grid that rounds to the number of units, if any; the nearer one if both
do. -/
def neighbour? (f : Format) (tie : Tie) (units level : Nat) : Option Decimal :=
  let exact := units * 5 ^ f.scale
  let step := 10 ^ level
  let below := exact / step
  let twiceRest := 2 * (exact % step)
  let preferBelow := decide (twiceRest < step) ||
    (twiceRest == step && tie == .even && below % 2 == 0)
  let candidates := if preferBelow then [below, below + 1] else [below + 1, below]
  (candidates.map (onGrid f level)).find? (readsBack f units)

/-- The decimal on the coarsest of the first grids that rounds to the number of units. -/
def shortestFrom (f : Format) (tie : Tie) (units : Nat) : Nat → Decimal
  | 0 => onGrid f 0 (units * 5 ^ f.scale)
  | level + 1 =>
    match neighbour? f tie units (level + 1) with
    | some d => d
    | none => shortestFrom f tie units level

/-- The shortest decimal that rounds to a number of units.  The search starts on a grid whose step
exceeds the number, since `2 ^ 93 < 10 ^ 28`. -/
def shortest (f : Format) (tie : Tie) (units : Nat) : Decimal :=
  if units = 0 then ⟨0, 0⟩
  else shortestFrom f tie units (((units * 5 ^ f.scale).log2 + 1) * 28 / 93 + 1)

end Decimal

end FloatPolynomial
