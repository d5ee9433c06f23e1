/-!
# Decimal Numerals

Natural numbers as lists of decimal digits.  `ofDigits_digits` says that the digits of a number
read back as the number; leading zeros do not change what is read.
-/

namespace FloatPolynomial

/-- The character of a digit below ten. -/
def digitChar (digit : Nat) : Char :=
  Char.ofNat (48 + digit)

/-- The value of a digit character. -/
def digitValue (c : Char) : Nat :=
  c.toNat - 48

/-- Puts the decimal digits of a number in front of a text. -/
def prependDigits (n : Nat) (rest : List Char) : List Char :=
  if n < 10 then digitChar n :: rest
  else prependDigits (n / 10) (digitChar (n % 10) :: rest)

/-- The decimal digits of a number, without leading zeros; zero has one digit. -/
def digits (n : Nat) : List Char :=
  prependDigits n []

/-- The number that a list of digits denotes. -/
def ofDigits (cs : List Char) : Nat :=
  cs.foldl (fun value c ↦ 10 * value + digitValue c) 0

theorem prependDigits_eq (n : Nat) (rest : List Char) :
    prependDigits n rest = digits n ++ rest := by
  have hgeneral (n : Nat) (front back : List Char) :
      prependDigits n (front ++ back) = prependDigits n front ++ back := by
    fun_induction prependDigits n front with
    | case1 n front hlt => rw [prependDigits, if_pos hlt, List.cons_append]
    | case2 n front hlt ih =>
      rw [prependDigits, if_neg hlt]
      exact ih
  exact hgeneral n [] rest

/-- The digits of a number are those of its tenth, followed by the last one. -/
theorem digits_eq (n : Nat) :
    digits n = if n < 10 then [digitChar n] else digits (n / 10) ++ [digitChar (n % 10)] := by
  rw [digits, prependDigits, prependDigits_eq]

/-- Induction over the digits of a number from the first one to the last. -/
theorem digits_induction {motive : Nat → List Char → Prop}
    (single : ∀ n < 10, motive n [digitChar n])
    (append : ∀ n, 10 ≤ n → motive (n / 10) (digits (n / 10)) →
      motive n (digits (n / 10) ++ [digitChar (n % 10)]))
    (n : Nat) : motive n (digits n) := by
  rw [digits_eq]
  split
  · exact single n ‹_›
  · exact append n (Nat.le_of_not_lt ‹_›) (digits_induction single append (n / 10))

theorem digitValue_digitChar {digit : Nat} (h : digit < 10) :
    digitValue (digitChar digit) = digit := by
  have hdigit : ∀ digit < 10, digitValue (digitChar digit) = digit := by decide
  exact hdigit digit h

theorem isDigit_digitChar {digit : Nat} (h : digit < 10) : (digitChar digit).isDigit = true := by
  have hdigit : ∀ digit < 10, (digitChar digit).isDigit = true := by decide
  exact hdigit digit h

theorem isDigit_of_mem_digits {n : Nat} {c : Char} (h : c ∈ digits n) : c.isDigit = true := by
  revert h
  refine digits_induction (motive := fun _ cs ↦ c ∈ cs → c.isDigit = true) (fun n hlt h ↦ ?_)
    (fun n hle ih h ↦ ?_) n
  · exact List.mem_singleton.mp h ▸ isDigit_digitChar hlt
  · rcases List.mem_append.mp h with hinit | hlast
    · exact ih hinit
    · exact List.mem_singleton.mp hlast ▸ isDigit_digitChar (Nat.mod_lt n (by decide))

theorem digits_ne_nil (n : Nat) : digits n ≠ [] := by
  rw [digits_eq]
  split <;> simp

@[simp]
theorem ofDigits_append_singleton (cs : List Char) (c : Char) :
    ofDigits (cs ++ [c]) = 10 * ofDigits cs + digitValue c := by
  simp [ofDigits]

@[simp]
theorem ofDigits_digits (n : Nat) : ofDigits (digits n) = n := by
  refine digits_induction (motive := fun n cs ↦ ofDigits cs = n) (fun n hlt ↦ ?_)
    (fun n hle ih ↦ ?_) n
  · simp [ofDigits, digitValue_digitChar hlt]
  · rw [ofDigits_append_singleton, ih, digitValue_digitChar (Nat.mod_lt n (by decide))]
    exact Nat.div_add_mod n 10

@[simp]
theorem ofDigits_replicate_zero_append (count : Nat) (cs : List Char) :
    ofDigits (List.replicate count '0' ++ cs) = ofDigits cs := by
  induction count with
  | zero => rfl
  | succ count ih =>
    rw [List.replicate_succ, List.cons_append]
    exact ih

end FloatPolynomial
