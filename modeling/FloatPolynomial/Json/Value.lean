import FloatPolynomial.Json.Token

/-!
# Values of JSON

A value is read from its tokens one at a time, with the arrays and objects that are still open as
a stack.  `Json.tokens` writes a value as tokens without anything in between.
-/

namespace FloatPolynomial

/-- The key of a member, in the parts in which it is written. -/
abbrev Key := List StringPart

inductive Json where
  | null
  | bool (value : Bool)
  | number (n : JsonNumber)
  | string (parts : List StringPart)
  | array (items : List Json)
  | object (members : List (Key × Json))

namespace Json

/-- An array or object that is still open, with what it holds before the value being read, the
latest first. -/
inductive Frame where
  | array (before : List Json)
  | object (before : List (Key × Json)) (key : Key)

/-- What has been read of a value, and what may follow: a value, the first item or the end of an
array, the first key or the end of an object, a further key, a colon after a key, or, after a
finished value, whatever continues or closes the innermost open frame. -/
inductive Reading where
  | value (context : List Frame)
  | firstItem (context : List Frame)
  | firstKey (context : List Frame)
  | nextKey (before : List (Key × Json)) (context : List Frame)
  | colon (before : List (Key × Json)) (key : Key) (context : List Frame)
  | finished (v : Json) (context : List Frame)

/-- Reads the token with which a value begins. -/
def beginValue (context : List Frame) : Token → Option Reading
  | .null => some (.finished .null context)
  | .bool value => some (.finished (.bool value) context)
  | .number n => some (.finished (.number n) context)
  | .string parts => some (.finished (.string parts) context)
  | .openArray => some (.firstItem context)
  | .openObject => some (.firstKey context)
  | _ => none

/-- Reads one token. -/
def readToken : Reading → Token → Option Reading
  | .value context, t => beginValue context t
  | .firstItem context, .closeArray => some (.finished (.array []) context)
  | .firstItem context, t => beginValue (.array [] :: context) t
  | .firstKey context, .closeObject => some (.finished (.object []) context)
  | .firstKey context, .string key => some (.colon [] key context)
  | .nextKey before context, .string key => some (.colon before key context)
  | .colon before key context, .colon => some (.value (.object before key :: context))
  | .finished v (.array before :: context), .comma =>
    some (.value (.array (v :: before) :: context))
  | .finished v (.array before :: context), .closeArray =>
    some (.finished (.array (v :: before).reverse) context)
  | .finished v (.object before key :: context), .comma =>
    some (.nextKey ((key, v) :: before) context)
  | .finished v (.object before key :: context), .closeObject =>
    some (.finished (.object ((key, v) :: before).reverse) context)
  | _, _ => none

/-- The value that a sequence of tokens denotes. -/
def ofTokens? (ts : List Token) : Option Json :=
  match ts.foldlM readToken (.value []) with
  | some (.finished v []) => some v
  | _ => none

mutual

/-- The tokens of a value. -/
def tokens : Json → List Token
  | null => [.null]
  | bool value => [.bool value]
  | number n => [.number n]
  | string parts => [.string parts]
  | array items => .openArray :: (itemTokens items ++ [.closeArray])
  | object members => .openObject :: (memberTokens members ++ [.closeObject])

/-- The tokens of the items of an array, with commas between them. -/
def itemTokens : List Json → List Token
  | [] => []
  | [v] => tokens v
  | v :: rest => tokens v ++ .comma :: itemTokens rest

/-- The tokens of the members of an object, with commas between them. -/
def memberTokens : List (Key × Json) → List Token
  | [] => []
  | [(key, v)] => .string key :: .colon :: tokens v
  | (key, v) :: rest => .string key :: .colon :: (tokens v ++ .comma :: memberTokens rest)

end

/-- The value that a text denotes. -/
def parse (text : List Char) : Option Json := do
  ofTokens? (← Token.lex text)

/-- The value as a text without blanks. -/
def text (v : Json) : List Char :=
  v.tokens.flatMap Token.text

end Json

end FloatPolynomial
