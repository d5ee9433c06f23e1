import FloatPolynomial.Json.TermList
import FloatPolynomial.Proofs.Json.Value
import FloatPolynomial.Proofs.Results

/-!
# Polynomials in JSON and Back

Every term is written as an object that is read as the term, if its coefficient is finite, and as
nothing otherwise.  The terms of a polynomial are written in their order, and building a polynomial
from them changes nothing.
-/

namespace FloatPolynomial

variable {f : Format}

@[simp]
theorem coefficientOfJson?_toJson (x : Binary .double) :
    coefficientOfJson? .double x.toJson = if x.isFinite then some x else none := by
  cases x with
  | nan => rfl
  | infinite negative => rfl
  | finite negative units h =>
    rw [Binary.toJson, coefficientOfJson?, JsonNumber.toCoefficient_double,
      JsonNumber.toBinary_ofDecimal_shortest negative h]

@[simp]
theorem powerOfJson?_digits (power : UInt32) :
    powerOfJson? (.number { whole := digits power.toNat }) = some power := by
  have hnatural : JsonNumber.natural? { whole := digits power.toNat } = some power.toNat :=
    congrArg some (ofDigits_digits power.toNat)
  rw [powerOfJson?, hnatural, Option.bind_eq_bind, Option.bind_some,
    if_pos power.toNat_lt_size, UInt32.ofNat_toNat]

/-- A term is read from the object that is written for it, if its coefficient is finite. -/
theorem Term.ofJson?_toJson (t : Term .double) :
    Term.ofJson? .double t.toJson = if t.coefficient.isFinite then some t else none := by
  have hmembers : namedMembers? [(Key.ofString multiplierName, t.coefficient.toJson),
      (Key.ofString powerName, .number { whole := digits t.power.toNat })] =
      some [(multiplierName.toList, t.coefficient.toJson),
        (powerName.toList, .number { whole := digits t.power.toNat })] := by
    simp [namedMembers?, Key.ofString, StringPart.characters?_map_char]
  have hmultiplier (v w : Json) : uniqueMember? multiplierName.toList
      [(multiplierName.toList, v), (powerName.toList, w)] = some v := rfl
  have hpower (v w : Json) : uniqueMember? powerName.toList
      [(multiplierName.toList, v), (powerName.toList, w)] = some w := rfl
  rw [Term.toJson, Term.ofJson?, hmembers]
  simp only [Option.bind_eq_bind, Option.bind_some, hmultiplier, hpower, termOfValues?,
    coefficientOfJson?_toJson, powerOfJson?_digits]
  cases t.coefficient.isFinite <;> rfl

/-- The value of a polynomial is read as the polynomial, if all its coefficients are finite. -/
theorem Poly.ofJson?_toJson (p : Poly .double) :
    Poly.ofJson? .double p.toJson =
      if p.terms.all fun t ↦ t.coefficient.isFinite then some p else none := by
  rw [Poly.toJson, Poly.ofJson?, mapM_map_eq_ite Term.ofJson?_toJson]
  split
  · rw [Option.bind_eq_bind, Option.bind_some, ofTerms_terms]
    rfl
  · rfl

theorem Binary.wellFormed_toJson (x : Binary f) : x.toJson.WellFormed := by
  cases x with
  | finite negative units h =>
    exact Json.wellFormed_number (JsonNumber.wellFormed_ofDecimal negative fun hzero ↦
      Int.le_of_eq (Decimal.exponent_shortest_of_zero h .even hzero))
  | _ => exact List.forall_mem_singleton.mpr trivial

/-- A name without control characters stands in quotes as it is. -/
def isPlainName (name : String) : Bool :=
  name.toList.all fun c ↦ decide (0x20 ≤ c.toNat)

theorem Key.wellFormed_ofString {name : String} (h : isPlainName name = true) :
    ∀ part ∈ Key.ofString name, part.WellFormed := by
  have hplain : ∀ c ∈ name.toList, 0x20 ≤ c.toNat :=
    fun c hc ↦ of_decide_eq_true (List.all_eq_true.mp h c hc)
  rw [Key.ofString, List.forall_mem_map]
  exact hplain

/-- An object with the given names, all written in their characters. -/
def Json.ofNames (members : List (String × Json)) : Json :=
  .object (members.map fun m ↦ (Key.ofString m.1, m.2))

theorem Json.wellFormed_ofNames {members : List (String × Json)}
    (hnames : (members.all fun m ↦ isPlainName m.1) = true)
    (hvalues : ∀ m ∈ members, m.2.WellFormed) : (ofNames members).WellFormed :=
  wellFormed_object (List.forall_mem_map.mpr fun m hm ↦
    ⟨Key.wellFormed_ofString (List.all_eq_true.mp hnames m hm), hvalues m hm⟩)

theorem Term.wellFormed_toJson (t : Term f) : t.toJson.WellFormed := by
  let members : List (String × Json) := [(multiplierName, t.coefficient.toJson),
    (powerName, .number { whole := digits t.power.toNat })]
  have hvalues : ∀ m ∈ members, m.2.WellFormed := by
    refine List.forall_mem_cons.mpr ⟨t.coefficient.wellFormed_toJson, ?_⟩
    rw [List.forall_mem_singleton]
    exact Json.wellFormed_number (JsonNumber.wellFormed_natural t.power.toNat)
  have hnames : (members.all fun m ↦ isPlainName m.1) = true := by
    simp [members, isPlainName, multiplierName, powerName]
  exact Json.wellFormed_ofNames hnames hvalues

theorem Poly.wellFormed_toJson (p : Poly f) : p.toJson.WellFormed :=
  Json.wellFormed_array (List.forall_mem_map.mpr fun t _ ↦ t.wellFormed_toJson)

/-- A name in quotes. -/
def quoted (name : String) : List Char :=
  '"' :: name.toList ++ ['"']

/-- A coefficient as it is written. -/
def Binary.jsonText : Binary f → List Char
  | .finite negative units _ =>
    (JsonNumber.ofDecimal negative (Decimal.shortest f .even units)).text
  | _ => ['n', 'u', 'l', 'l']

/-- A term as it is written. -/
def Term.jsonText (t : Term f) : List Char :=
  '{' :: quoted multiplierName ++ ':' :: t.coefficient.jsonText ++
    ',' :: quoted powerName ++ ':' :: digits t.power.toNat ++ ['}']

theorem Binary.text_toJson (x : Binary f) : x.toJson.text = x.jsonText := by
  cases x with
  | finite negative units h => exact List.append_nil _
  | _ => rfl

theorem Term.text_toJson (t : Term f) : t.toJson.text = t.jsonText := by
  have hmultiplier : Token.text (.string (Key.ofString multiplierName)) = quoted multiplierName :=
    rfl
  have hpower : Token.text (.string (Key.ofString powerName)) = quoted powerName := rfl
  have hcoefficient : t.coefficient.toJson.tokens.flatMap Token.text = t.coefficient.jsonText :=
    t.coefficient.text_toJson
  rw [Json.text, Term.toJson, Term.jsonText, ← hmultiplier, ← hpower, ← hcoefficient]
  simp [Json.tokens, Json.memberTokens, Token.text, JsonNumber.text_natural]

/-- A polynomial is written as the array of its terms, with null for every coefficient that is
infinite or a non-number.  Reading the text gives the polynomial back, with all its terms, if its
coefficients are finite, and is refused otherwise. -/
theorem Poly.readJson?_writeJson (p : Poly .double) :
    p.writeJson = '[' :: [','].intercalate (p.terms.map Term.jsonText) ++ [']'] ∧
      Poly.readJson? .double p.writeJson =
        if p.terms.all fun t ↦ t.coefficient.isFinite then some p else none := by
  constructor
  · have hterms : Json.text ∘ Term.toJson = (Term.jsonText : Term .double → List Char) :=
      funext fun t ↦ t.text_toJson
    rw [Poly.writeJson, Poly.toJson, Json.text_array, List.map_map, hterms]
  · rw [Poly.readJson?, Poly.writeJson, Json.parse_text_eq_some p.wellFormed_toJson]
    exact p.ofJson?_toJson

/-- An exponent is written from `1e16` on and below `1e-5`. -/
example :
    (Binary.ofBits .double 0x430c6bf526340000).jsonText = "1000000000000000.0".toList ∧
      (Binary.ofBits .double 0x4341c37937e08000).jsonText = "1e16".toList ∧
      (Binary.ofBits .double 0x3ee4f8b588e368f1).jsonText = "0.00001".toList ∧
      (Binary.ofBits .double 0xbe90c6f7a0b5ed8d).jsonText = "-2.5e-7".toList := by
  decide +kernel

end FloatPolynomial
