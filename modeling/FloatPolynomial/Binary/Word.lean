import FloatPolynomial.Binary.Arithmetic
import FloatPolynomial.Binary.Encoding

/-!
# Words of a Format

A number is stored in a word of as many bits as its encoding has.  All words of a non-number stand
for one number, although they have a sign bit and a payload of their own.  An addition of words is
therefore not determined by the addition of numbers; a `WordAddition` is any operation that agrees
with it.

`Coefficient` is what polynomials ask of their coefficients.  Numbers have it, and so have words, of
which every bit counts.
-/

namespace FloatPolynomial

variable {f : Format}

/-- The bits of a word: the sign, the exponent field, and the digits after the leading one. -/
def Format.width (f : Format) : Nat :=
  f.exponentBits + f.precision

/-- A word of the format. -/
structure Word (f : Format) where
  bits : BitVec f.width
  deriving DecidableEq

namespace Word

/-- The sign bit, which the words of a non-number have as well. -/
def isNegative (w : Word f) : Bool :=
  w.bits.toNat / f.signWeight % 2 == 1

instance : Zero (Word f) := ⟨⟨0#f.width⟩⟩

end Word

namespace Binary

/-- The number that a word stands for. -/
def ofWord (w : Word f) : Binary f :=
  ofBits f w.bits.toNat

/-- The word of a number; of the words of a non-number, the positive quiet one. -/
def toWord (x : Binary f) : Word f :=
  ⟨.ofNat f.width x.toBits⟩

theorem ofWord_zero : ofWord (0 : Word f) = 0 := by
  have hbits : (0 : Word f).bits.toNat = 0 := rfl
  have hinfinity : 0 < f.infinityBits := by
    have hfield : 2 ^ 1 ≤ 2 ^ f.exponentBits :=
      Nat.pow_le_pow_right (by decide) f.exponentBits_pos
    exact Nat.mul_pos (by omega) (Nat.two_pow_pos _)
  have hunits : f.unitsOfBits 0 = 0 := by
    rw [Format.unitsOfBits, Nat.zero_div, if_pos rfl]
  rw [ofWord, hbits, ofBits, Nat.zero_div, Nat.zero_mod, if_pos hinfinity, hunits, ofUnits,
    dif_pos f.representable_zero]
  rfl

/-- Only for a non-number does the sign bit say more than the number. -/
theorem isNegative_ofWord {w : Word f} (h : ofWord w ≠ nan) :
    w.isNegative = (ofWord w).isNegative := by
  unfold ofWord ofBits ofUnits at h ⊢
  dsimp only at h ⊢
  split
  · split <;> rfl
  · rename_i hfinite
    rw [if_neg hfinite] at h
    split
    · rfl
    · rename_i hinfinite
      exact absurd (if_neg hinfinite) h

end Binary

/-- An addition of words.  A sum stands for the sum of the numbers that its addends stand for.
Where this is not a number, the choice among its words is free. -/
class WordAddition (f : Format) extends Add (Word f) where
  ofWord_add : ∀ v w : Word f, Binary.ofWord (v + w) = Binary.ofWord v + Binary.ofWord w

/-- What polynomials ask of a coefficient: it stands for a number, and it has a sign, which is that
of its number where the number has one. -/
class Coefficient (f : outParam Format) (α : Type) [Zero α] where
  number : α → Binary f
  isNegative : α → Bool
  number_zero : number 0 = 0
  isNegative_eq : ∀ {x : α}, number x ≠ .nan → isNegative x = (number x).isNegative

instance : Coefficient f (Binary f) where
  number x := x
  isNegative := Binary.isNegative
  number_zero := rfl
  isNegative_eq _ := rfl

instance : Coefficient f (Word f) where
  number := Binary.ofWord
  isNegative := Word.isNegative
  number_zero := Binary.ofWord_zero
  isNegative_eq := Binary.isNegative_ofWord

namespace Coefficient

variable {α : Type} [Zero α] [Coefficient f α]

/-- Whether a coefficient stands for one of the two zeros. -/
def isZero (c : α) : Bool :=
  (number c).isZero

@[simp]
theorem isZero_zero : isZero (0 : α) = true := by
  rw [isZero, number_zero, Binary.isZero_zero]

@[simp]
theorem isNegative_zero : isNegative (0 : α) = false := by
  have hnumber : number (0 : α) ≠ .nan := by
    rw [number_zero, Binary.zero_def]
    intro h
    cases h
  rw [isNegative_eq hnumber, number_zero]
  rfl

@[simp]
theorem number_binary (x : Binary f) : number x = x := rfl

@[simp]
theorem isNegative_binary (x : Binary f) : isNegative x = x.isNegative := rfl

@[simp]
theorem isZero_binary (x : Binary f) : isZero x = x.isZero := rfl

@[simp]
theorem number_word (w : Word f) : number w = Binary.ofWord w := rfl

end Coefficient

end FloatPolynomial
