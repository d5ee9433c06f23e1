import FloatPolynomial.Binary.Arithmetic
import FloatPolynomial.Decimal.Basic

/-!
# Numbers of JSON

A JSON number has an optional minus sign, digits without leading zeros, an optional fraction of at
least one digit, and an optional exponent.  Only a number without sign, fraction and exponent is an
unsigned integer, even if the value of another one is whole.
-/

namespace FloatPolynomial

/-- The parts of a JSON number; an absent fraction is the empty one. -/
structure JsonNumber where
  negative : Bool := false
  whole : List Char
  fraction : List Char := []
  exponent : Option Int := none
  deriving DecidableEq

namespace JsonNumber

/-- The value without its sign. -/
def magnitude (n : JsonNumber) : Decimal :=
  ⟨ofDigits (n.whole ++ n.fraction), n.exponent.getD 0 - n.fraction.length⟩

/-- The nearest number of a format. -/
def toBinary (f : Format) (n : JsonNumber) : Binary f :=
  n.magnitude.toBinary f n.negative

/-- The value of a number that is written as an unsigned integer. -/
def natural? (n : JsonNumber) : Option Nat :=
  if !n.negative && n.fraction.isEmpty && n.exponent.isNone then some (ofDigits n.whole) else none

/-- Whether the number is written as an integer of 64 bits, unsigned or with a minus sign; the
negative zero is none. -/
def isInteger64 (n : JsonNumber) : Bool :=
  n.fraction.isEmpty && n.exponent.isNone &&
    if n.negative then decide (0 < ofDigits n.whole ∧ ofDigits n.whole ≤ UInt64.size / 2)
    else decide (ofDigits n.whole < UInt64.size)

/-- The coefficient that a number is read as.  An integer of 64 bits is rounded once; any other
number is rounded to the 64-bit format and from there to the format. -/
def toCoefficient (f : Format) (n : JsonNumber) : Binary f :=
  if n.isInteger64 then n.toBinary f else (n.toBinary .double).convert f

theorem toCoefficient_double (n : JsonNumber) : n.toCoefficient .double = n.toBinary .double := by
  rw [toCoefficient, Binary.convert_self, ite_self]

/-- The number in the notation of JSON. -/
def text (n : JsonNumber) : List Char :=
  (if n.negative then ['-'] else []) ++ n.whole ++
    (if n.fraction.isEmpty then [] else '.' :: n.fraction) ++
    match n.exponent with
    | none => []
    | some exponent => 'e' :: (if exponent < 0 then ['-'] else []) ++ digits exponent.natAbs

/-! ## Scanning

Each scanner takes a part from the front of a text and gives it with the rest.
-/

/-- A nonempty run of digits. -/
def scanDigits (text : List Char) : Option (List Char × List Char) :=
  let run := text.takeWhile (·.isDigit)
  if run.isEmpty then none else some (run, text.dropWhile (·.isDigit))

/-- The digits before the point: a zero, or a run that does not begin with one. -/
def scanWhole : List Char → Option (List Char × List Char)
  | '0' :: rest => some (['0'], rest)
  | text => scanDigits text

/-- The fraction, if a point follows. -/
def scanFraction : List Char → Option (List Char × List Char)
  | '.' :: rest => scanDigits rest
  | text => some ([], text)

/-- The sign of an exponent, if one follows. -/
def scanExponentSign : List Char → Bool × List Char
  | '+' :: rest => (false, rest)
  | '-' :: rest => (true, rest)
  | text => (false, text)

/-- The exponent, if its mark follows. -/
def scanExponent : List Char → Option (Option Int × List Char)
  | [] => some (none, [])
  | c :: rest =>
    if c = 'e' ∨ c = 'E' then do
      let (negative, rest) := scanExponentSign rest
      let (run, rest) ← scanDigits rest
      return (some (if negative then -ofDigits run else ofDigits run), rest)
    else some (none, c :: rest)

/-- A number at the front of a text. -/
def scan (text : List Char) : Option (JsonNumber × List Char) := do
  let negative := text.head? == some '-'
  let (whole, rest) ← scanWhole (if negative then text.drop 1 else text)
  let (fraction, rest) ← scanFraction rest
  let (exponent, rest) ← scanExponent rest
  return ({ negative, whole, fraction, exponent }, rest)

theorem length_scanDigits {text run rest : List Char} (h : scanDigits text = some (run, rest)) :
    rest.length < text.length := by
  have hlength : (text.takeWhile (·.isDigit)).length + (text.dropWhile (·.isDigit)).length =
      text.length := by
    rw [← List.length_append, List.takeWhile_append_dropWhile]
  unfold scanDigits at h
  dsimp only at h
  split at h
  · cases h
  · cases h
    rename_i hrun
    have := List.length_pos_iff.mpr fun hnil ↦ hrun (List.isEmpty_iff.mpr hnil)
    omega

theorem length_scanWhole {text run rest : List Char} (h : scanWhole text = some (run, rest)) :
    rest.length < text.length := by
  unfold scanWhole at h
  split at h
  · cases h
    exact Nat.lt_succ_self _
  · exact length_scanDigits h

theorem length_scanFraction {text run rest : List Char}
    (h : scanFraction text = some (run, rest)) : rest.length ≤ text.length := by
  unfold scanFraction at h
  split at h
  · have := length_scanDigits h
    simp only [List.length_cons]
    omega
  · cases h
    exact Nat.le_refl _

theorem length_scanExponentSign (text : List Char) :
    (scanExponentSign text).2.length ≤ text.length := by
  unfold scanExponentSign
  split <;> simp

theorem length_scanExponent {text rest : List Char} {exponent : Option Int}
    (h : scanExponent text = some (exponent, rest)) : rest.length ≤ text.length := by
  unfold scanExponent at h
  split at h
  · cases h
    exact Nat.le_refl _
  · split at h
    · rename_i c tail _
      simp only [Option.bind_eq_bind, Option.bind_eq_some_iff] at h
      obtain ⟨⟨run, rest'⟩, hdigits, h⟩ := h
      cases h
      have hsign := length_scanExponentSign tail
      have := length_scanDigits hdigits
      simp only [List.length_cons]
      omega
    · cases h
      exact Nat.le_refl _

/-- A scanned number leaves less text. -/
theorem length_scan {text rest : List Char} {n : JsonNumber} (h : scan text = some (n, rest)) :
    rest.length < text.length := by
  unfold scan at h
  simp only [Option.bind_eq_bind, Option.bind_eq_some_iff] at h
  obtain ⟨⟨whole, rest₁⟩, hwhole, ⟨fraction, rest₂⟩, hfraction, ⟨exponent, rest₃⟩, hexponent, h⟩ := h
  cases h
  dsimp only at hfraction hexponent ⊢
  have hlt := length_scanWhole hwhole
  have hle := length_scanFraction hfraction
  have hle' := length_scanExponent hexponent
  split at hlt
  · rw [List.length_drop] at hlt
    omega
  · omega

end JsonNumber

end FloatPolynomial
