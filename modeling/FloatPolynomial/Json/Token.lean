import FloatPolynomial.Json.Number

/-!
# Tokens of JSON

A JSON text is a sequence of tokens with blanks around them.  Strings are kept in the parts in
which they are written, characters and 16-bit units, so that a string with a unit that stands for
no character is still a token; `Token.characters?` says which characters a string consists of.
-/

namespace FloatPolynomial

/-- A part of a JSON string: a character, plain or in a short escape, or an escaped 16-bit unit. -/
inductive StringPart where
  | char (c : Char)
  | unit (code : Nat)
  deriving DecidableEq

inductive Token where
  | openArray
  | closeArray
  | openObject
  | closeObject
  | comma
  | colon
  | null
  | bool (value : Bool)
  | number (n : JsonNumber)
  | string (parts : List StringPart)
  deriving DecidableEq

namespace StringPart

/-- The characters of a string.  A unit stands for itself, or together with the next one, if the
two are a surrogate pair; a surrogate by itself stands for no character. -/
def characters? : List StringPart → Option (List Char)
  | [] => some []
  | char c :: rest => do return c :: (← characters? rest)
  | unit high :: unit low :: rest =>
    if 0xD800 ≤ high ∧ high < 0xDC00 then
      if 0xDC00 ≤ low ∧ low < 0xE000 then do
        let code := 0x10000 + (high - 0xD800) * 0x400 + (low - 0xDC00)
        return Char.ofNat code :: (← characters? rest)
      else none
    else if 0xDC00 ≤ high ∧ high < 0xE000 then none
    else do return Char.ofNat high :: (← characters? (unit low :: rest))
  | unit code :: rest =>
    if 0xD800 ≤ code ∧ code < 0xE000 then none
    else do return Char.ofNat code :: (← characters? rest)

theorem characters?_map_char (cs : List Char) : characters? (cs.map char) = some cs := by
  induction cs with
  | nil => rfl
  | cons c rest ih => simp [characters?, ih]

end StringPart

/-! ## Scanning -/

namespace Token

/-- The value of a hexadecimal digit. -/
def hexValue? (c : Char) : Option Nat :=
  if c.isDigit then some (digitValue c)
  else if 'a' ≤ c ∧ c ≤ 'f' then some (c.toNat - 'a'.toNat + 10)
  else if 'A' ≤ c ∧ c ≤ 'F' then some (c.toNat - 'A'.toNat + 10)
  else none

/-- The unit written by four hexadecimal digits. -/
def hexUnit? (a b c d : Char) : Option Nat := do
  return (((← hexValue? a) * 16 + (← hexValue? b)) * 16 + (← hexValue? c)) * 16 + (← hexValue? d)

/-- The character that a short escape stands for. -/
def escaped? : Char → Option Char
  | '"' => some '"'
  | '\\' => some '\\'
  | '/' => some '/'
  | 'b' => some '\x08'
  | 'f' => some '\x0C'
  | 'n' => some '\n'
  | 'r' => some '\r'
  | 't' => some '\t'
  | _ => none

/-- The parts of a string after its opening quote, and the text after its closing one.  Control
characters have to be escaped. -/
def scanString : List Char → Option (List StringPart × List Char)
  | [] => none
  | '"' :: rest => some ([], rest)
  | '\\' :: 'u' :: a :: b :: c :: d :: rest => do
    let code ← hexUnit? a b c d
    let (parts, rest) ← scanString rest
    return (.unit code :: parts, rest)
  | '\\' :: e :: rest => do
    let c ← escaped? e
    let (parts, rest) ← scanString rest
    return (.char c :: parts, rest)
  | c :: rest =>
    if c.toNat < 0x20 then none
    else do
      let (parts, rest) ← scanString rest
      return (.char c :: parts, rest)

/-- The blanks of JSON. -/
def isBlank (c : Char) : Bool :=
  c == ' ' || c == '\t' || c == '\n' || c == '\r'

/-- The token at the front of a text that begins with no blank. -/
def scan (text : List Char) : Option (Token × List Char) :=
  match text with
  | '[' :: rest => some (openArray, rest)
  | ']' :: rest => some (closeArray, rest)
  | '{' :: rest => some (openObject, rest)
  | '}' :: rest => some (closeObject, rest)
  | ',' :: rest => some (comma, rest)
  | ':' :: rest => some (colon, rest)
  | 'n' :: 'u' :: 'l' :: 'l' :: rest => some (null, rest)
  | 't' :: 'r' :: 'u' :: 'e' :: rest => some (bool true, rest)
  | 'f' :: 'a' :: 'l' :: 's' :: 'e' :: rest => some (bool false, rest)
  | '"' :: rest => do
    let (parts, rest) ← scanString rest
    return (string parts, rest)
  | text => do
    let (n, rest) ← JsonNumber.scan text
    return (number n, rest)

theorem length_scanString {text rest : List Char} {parts : List StringPart}
    (h : scanString text = some (parts, rest)) : rest.length < text.length := by
  fun_induction scanString text generalizing parts rest with
  | case1 => cases h
  | case2 => cases h; simp
  | case3 a b c d tail ih =>
    simp only [Option.bind_eq_bind, Option.bind_eq_some_iff] at h
    obtain ⟨code, -, ⟨tailParts, tailRest⟩, htail, h⟩ := h
    cases h
    have hlt : tailRest.length < tail.length := ih htail
    dsimp only [List.length_cons]
    omega
  | case4 e tail _ ih =>
    simp only [Option.bind_eq_bind, Option.bind_eq_some_iff] at h
    obtain ⟨c, -, ⟨tailParts, tailRest⟩, htail, h⟩ := h
    cases h
    have hlt : tailRest.length < tail.length := ih htail
    dsimp only [List.length_cons]
    omega
  | case5 => cases h
  | case6 c tail _ _ _ _ ih =>
    simp only [Option.bind_eq_bind, Option.bind_eq_some_iff] at h
    obtain ⟨⟨tailParts, tailRest⟩, htail, h⟩ := h
    cases h
    have hlt : tailRest.length < tail.length := ih htail
    dsimp only [List.length_cons]
    omega

/-- A scanned token leaves less text. -/
theorem length_scan {text rest : List Char} {t : Token} (h : scan text = some (t, rest)) :
    rest.length < text.length := by
  unfold scan at h
  split at h
  case h_10 =>
    simp only [Option.bind_eq_bind, Option.bind_eq_some_iff] at h
    obtain ⟨⟨parts, tail⟩, htail, h⟩ := h
    cases h
    exact Nat.lt_succ_of_lt (length_scanString htail)
  case h_11 =>
    simp only [Option.bind_eq_bind, Option.bind_eq_some_iff] at h
    obtain ⟨⟨n, tail⟩, htail, h⟩ := h
    cases h
    exact JsonNumber.length_scan htail
  all_goals
    cases h
    simp only [List.length_cons]
    omega

/-- The tokens of a text. -/
def lex (text : List Char) : Option (List Token) :=
  match text with
  | [] => some []
  | c :: tail =>
    if isBlank c then lex tail
    else match _h : scan (c :: tail) with
      | none => none
      | some (t, rest) => do return t :: (← lex rest)
termination_by text.length
decreasing_by
  · simp
  · exact length_scan ‹_›

/-- A hexadecimal digit below sixteen. -/
def hexChar (value : Nat) : Char :=
  if value < 10 then digitChar value else Char.ofNat ('a'.toNat + (value - 10))

/-- A part of a string as it is written between quotes. -/
def partText : StringPart → List Char
  | .char c =>
    if c = '"' ∨ c = '\\' then ['\\', c]
    else if c.toNat < 0x20 then unitText c.toNat
    else [c]
  | .unit code => unitText code
where
  /-- Four hexadecimal digits. -/
  unitText (code : Nat) : List Char :=
    ['\\', 'u', hexChar (code / 0x1000 % 16), hexChar (code / 0x100 % 16),
      hexChar (code / 0x10 % 16), hexChar (code % 16)]

/-- The token as it is written. -/
def text : Token → List Char
  | openArray => ['[']
  | closeArray => [']']
  | openObject => ['{']
  | closeObject => ['}']
  | comma => [',']
  | colon => [':']
  | null => ['n', 'u', 'l', 'l']
  | bool true => ['t', 'r', 'u', 'e']
  | bool false => ['f', 'a', 'l', 's', 'e']
  | number n => n.text
  | string parts => '"' :: parts.flatMap partText ++ ['"']

end Token

end FloatPolynomial
