import FloatPolynomial.Binary.Basic

/-!
# Arithmetic on Binary Numbers

Sum, product and quotient are the exact results, rounded once.  Among infinities and non-numbers
they follow the usual rules: a difference of infinities, a product of zero and infinity, and the
quotients zero by zero and infinity by infinity are not numbers.  A number is converted to another
format by rounding it there.

Whole powers are formed by repeated squaring.  `powBySquaring` is defined over any multiplication, in the
one order of its products, which rounding makes part of the result.
-/

namespace FloatPolynomial

namespace Binary

variable {f : Format}

/-- The sum of two numbers.  A sum that is exactly zero is negative only if both addends are. -/
protected def add : Binary f → Binary f → Binary f
  | nan, _ => nan
  | _, nan => nan
  | infinite a, infinite b => if a = b then infinite a else nan
  | infinite a, finite _ _ _ => infinite a
  | finite _ _ _, infinite b => infinite b
  | finite a m _, finite b n _ =>
    let sum := signedUnits a m + signedUnits b n
    round f (if sum = 0 then a && b else decide (sum < 0)) sum.natAbs 1

/-- The product of two numbers. -/
protected def mul : Binary f → Binary f → Binary f
  | nan, _ => nan
  | _, nan => nan
  | infinite a, infinite b => infinite (a ^^ b)
  | infinite a, finite b n _ => if n = 0 then nan else infinite (a ^^ b)
  | finite a m _, infinite b => if m = 0 then nan else infinite (a ^^ b)
  | finite a m _, finite b n _ => round f (a ^^ b) (m * n) (2 ^ f.scale)

/-- The quotient of two numbers. -/
protected def div : Binary f → Binary f → Binary f
  | nan, _ => nan
  | _, nan => nan
  | infinite _, infinite _ => nan
  | infinite a, finite b _ _ => infinite (a ^^ b)
  | finite a _ _, infinite b => finite (a ^^ b) 0 f.representable_zero
  | finite a m _, finite b n _ =>
    if n = 0 then
      if m = 0 then nan else infinite (a ^^ b)
    else round f (a ^^ b) (m * 2 ^ f.scale) n

/-- The nearest number of another format. -/
def convert (g : Format) : Binary f → Binary g
  | nan => nan
  | infinite negative => infinite negative
  | finite negative units _ => round g negative (units * 2 ^ g.scale) (2 ^ f.scale)

@[simp]
theorem convert_self (x : Binary f) : x.convert f = x := by
  cases x with
  | nan => rfl
  | infinite negative => rfl
  | finite negative units h => exact round_mul negative h (Nat.two_pow_pos f.scale)

instance : Add (Binary f) := ⟨Binary.add⟩

instance : Mul (Binary f) := ⟨Binary.mul⟩

instance : Div (Binary f) := ⟨Binary.div⟩

theorem add_finite (a b : Bool) (m n : Nat) (hm : f.Representable m) (hn : f.Representable n) :
    finite a m hm + finite b n hn =
      round f
        (if signedUnits a m + signedUnits b n = 0 then a && b
          else decide (signedUnits a m + signedUnits b n < 0))
        (signedUnits a m + signedUnits b n).natAbs 1 := rfl

theorem mul_finite (a b : Bool) (m n : Nat) (hm : f.Representable m) (hn : f.Representable n) :
    finite a m hm * finite b n hn = round f (a ^^ b) (m * n) (2 ^ f.scale) := rfl

protected theorem add_comm (x y : Binary f) : x + y = y + x := by
  rcases x with _ | a | ⟨a, m, hm⟩ <;> rcases y with _ | b | ⟨b, n, hn⟩ <;> try rfl
  · change (if a = b then infinite a else nan : Binary f) = if b = a then infinite b else nan
    cases a <;> cases b <;> rfl
  · rw [add_finite, add_finite, Int.add_comm, Bool.and_comm]

protected theorem mul_comm (x y : Binary f) : x * y = y * x := by
  rcases x with _ | a | ⟨a, m, hm⟩ <;> rcases y with _ | b | ⟨b, n, hn⟩ <;> try rfl
  · exact congrArg infinite (Bool.xor_comm a b)
  · change (if n = 0 then nan else infinite (a ^^ b) : Binary f) =
      if n = 0 then nan else infinite (b ^^ a)
    rw [Bool.xor_comm]
  · change (if m = 0 then nan else infinite (a ^^ b) : Binary f) =
      if m = 0 then nan else infinite (b ^^ a)
    rw [Bool.xor_comm]
  · rw [mul_finite, mul_finite, Nat.mul_comm, Bool.xor_comm]

/-- A product with the number one is exact. -/
@[simp]
protected theorem mul_one (x : Binary f) : x * 1 = x := by
  rcases x with _ | a | ⟨a, m, hm⟩
  · rfl
  · rw [one_def]
    change (if 2 ^ f.scale = 0 then nan else infinite (a ^^ false) : Binary f) = infinite a
    rw [if_neg (Nat.ne_of_gt (Nat.two_pow_pos f.scale)), Bool.xor_false]
  · rw [one_def, mul_finite, round_mul _ hm (Nat.two_pow_pos f.scale), Bool.xor_false]

@[simp]
protected theorem one_mul (x : Binary f) : 1 * x = x := by
  rw [Binary.mul_comm, Binary.mul_one]

/-- A product with minus one is exact. -/
@[simp]
theorem mul_neg_one (x : Binary f) : x * -1 = -x := by
  rcases x with _ | a | ⟨a, m, hm⟩
  · rfl
  · rw [one_def, neg_finite]
    change (if 2 ^ f.scale = 0 then nan else infinite (a ^^ true) : Binary f) = infinite (!a)
    rw [if_neg (Nat.ne_of_gt (Nat.two_pow_pos f.scale)), Bool.xor_true]
  · rw [one_def, neg_finite, neg_finite, mul_finite, round_mul _ hm (Nat.two_pow_pos f.scale),
      Bool.not_false, Bool.xor_true]

@[simp]
theorem neg_one_mul (x : Binary f) : -1 * x = -x := by
  rw [Binary.mul_comm, mul_neg_one]

end Binary

section Powers

variable {α : Type} [Mul α]

/-- Multiplies `result` by the squares `square ^ 2`, `square ^ 4`, … that the binary digits of
`exponent` select, the least one first. -/
def mulSquares (result square : α) (exponent : Nat) : α :=
  if exponent = 0 then result
  else
    let next := square * square
    mulSquares (if exponent % 2 = 1 then result * next else result) next (exponent / 2)

/-- The power `base ^ exponent` by repeated squaring: squarings for the factors of two in the
exponent first, then one product for each further binary digit one. -/
def powBySquaring [One α] (base : α) (exponent : Nat) : α :=
  if exponent = 0 then 1
  else if exponent % 2 = 0 then powBySquaring (base * base) (exponent / 2)
  else mulSquares base base (exponent / 2)

@[simp]
theorem powBySquaring_zero [One α] (base : α) : powBySquaring base 0 = 1 := by
  simp [powBySquaring]

@[simp]
theorem powBySquaring_one [One α] (base : α) : powBySquaring base 1 = base := by
  simp [powBySquaring, mulSquares]

end Powers

namespace Binary

variable {f : Format}

instance : Pow (Binary f) Nat := ⟨powBySquaring⟩

@[simp]
theorem pow_zero (x : Binary f) : x ^ (0 : Nat) = 1 :=
  powBySquaring_zero x

@[simp]
theorem pow_one (x : Binary f) : x ^ (1 : Nat) = x :=
  powBySquaring_one x

end Binary

end FloatPolynomial
