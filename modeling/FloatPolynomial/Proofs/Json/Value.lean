import FloatPolynomial.Json.Value
import FloatPolynomial.Proofs.Json.Token

/-!
# Written Values Are Read

The tokens of a value take the reader from where a value is expected to where that value is
finished, in any context.  Since no two numbers stand next to each other among them, every text that
is written for a value, with blanks where they may stand, is parsed as that value.
-/

namespace FloatPolynomial

namespace Json

/-- Induction over values, with the items of an array and the members of an object. -/
theorem induction {motive : Json → Prop} (null : motive .null)
    (bool : ∀ value, motive (.bool value)) (number : ∀ n, motive (.number n))
    (string : ∀ parts, motive (.string parts))
    (array : ∀ items, (∀ v ∈ items, motive v) → motive (.array items))
    (object : ∀ members, (∀ m ∈ members, motive m.2) → motive (.object members)) (v : Json) :
    motive v :=
  @Json.rec motive (fun items ↦ ∀ v ∈ items, motive v) (fun members ↦ ∀ m ∈ members, motive m.2)
    (fun m ↦ motive m.2) null bool number string array object (List.forall_mem_nil _)
    (fun _ _ hv hrest ↦ List.forall_mem_cons.mpr ⟨hv, hrest⟩) (List.forall_mem_nil _)
    (fun _ _ hm hrest ↦ List.forall_mem_cons.mpr ⟨hm, hrest⟩) (fun _ _ hv ↦ hv) v

theorem itemTokens_cons_cons (v w : Json) (more : List Json) :
    itemTokens (v :: w :: more) = v.tokens ++ .comma :: itemTokens (w :: more) := rfl

theorem memberTokens_cons_cons (key : Key) (v : Json) (m : Key × Json)
    (more : List (Key × Json)) :
    memberTokens ((key, v) :: m :: more) =
      .string key :: .colon :: (v.tokens ++ .comma :: memberTokens (m :: more)) := rfl

/-- What the reader makes of some tokens. -/
def readTokens (reading : Reading) (ts : List Token) : Option Reading :=
  ts.foldlM readToken reading

theorem readTokens_cons {reading next : Reading} {t : Token} (h : readToken reading t = some next)
    (ts : List Token) : readTokens reading (t :: ts) = readTokens next ts := by
  rw [readTokens, List.foldlM_cons, h]
  rfl

theorem readTokens_append {reading next : Reading} {front : List Token}
    (h : readTokens reading front = some next) (back : List Token) :
    readTokens reading (front ++ back) = readTokens next back := by
  rw [readTokens, List.foldlM_append, ← readTokens, h]
  rfl

/-- The tokens of a value take the reader past the value. -/
def Reads (v : Json) : Prop :=
  ∀ context, readTokens (.value context) v.tokens = some (.finished v context)

/-- The items that are left of an array take the reader past the array, whatever items it has read
before them. -/
theorem readTokens_items {items : List Json} (h : ∀ v ∈ items, v.Reads) (hne : items ≠ [])
    (before : List Json) (context : List Frame) :
    readTokens (.value (.array before :: context)) (itemTokens items ++ [.closeArray]) =
      some (.finished (.array (before.reverse ++ items)) context) := by
  induction items generalizing before with
  | nil => exact absurd rfl hne
  | cons v rest ih =>
    obtain ⟨hv, hrest⟩ := List.forall_mem_cons.mp h
    cases rest with
    | nil =>
      rw [itemTokens, readTokens_append (hv _), ← List.reverse_cons]
      rfl
    | cons w more =>
      have hcomma : readToken (.finished v (.array before :: context)) .comma =
          some (.value (.array (v :: before) :: context)) := rfl
      rw [itemTokens_cons_cons, List.append_assoc, readTokens_append (hv _), List.cons_append,
        readTokens_cons hcomma, ih hrest (List.cons_ne_nil _ _), List.reverse_cons,
        List.append_assoc, List.singleton_append]

theorem readTokens_members {members : List (Key × Json)} (h : ∀ m ∈ members, m.2.Reads)
    (hne : members ≠ []) (before : List (Key × Json)) (context : List Frame) :
    readTokens (.nextKey before context) (memberTokens members ++ [.closeObject]) =
      some (.finished (.object (before.reverse ++ members)) context) := by
  induction members generalizing before with
  | nil => exact absurd rfl hne
  | cons m rest ih =>
    obtain ⟨hm, hrest⟩ := List.forall_mem_cons.mp h
    obtain ⟨key, v⟩ := m
    have hkey : readToken (.nextKey before context) (.string key) =
        some (.colon before key context) := rfl
    have hcolon : readToken (.colon before key context) .colon =
        some (.value (.object before key :: context)) := rfl
    cases rest with
    | nil =>
      rw [memberTokens, List.cons_append, List.cons_append, readTokens_cons hkey,
        readTokens_cons hcolon, readTokens_append (hm _), ← List.reverse_cons]
      rfl
    | cons m more =>
      have hcomma : readToken (.finished v (.object before key :: context)) .comma =
          some (.nextKey ((key, v) :: before) context) := rfl
      rw [memberTokens_cons_cons, List.cons_append, List.cons_append, readTokens_cons hkey,
        readTokens_cons hcolon, List.append_assoc, readTokens_append (hm _), List.cons_append,
        readTokens_cons hcomma, ih hrest (List.cons_ne_nil _ _), List.reverse_cons,
        List.append_assoc, List.singleton_append]

/-- No value begins with the end of an array, so the first item of an array is read as any value
is. -/
theorem readTokens_firstItem (v : Json) (rest : List Json) (context : List Frame) :
    readTokens (.firstItem context) (itemTokens (v :: rest) ++ [.closeArray]) =
      readTokens (.value (.array [] :: context)) (itemTokens (v :: rest) ++ [.closeArray]) := by
  have hvalue (more : List Token) : readTokens (.firstItem context) (v.tokens ++ more) =
      readTokens (.value (.array [] :: context)) (v.tokens ++ more) := by
    cases v <;> rfl
  cases rest with
  | nil => exact hvalue _
  | cons w more =>
    rw [itemTokens_cons_cons, List.append_assoc]
    exact hvalue _

theorem readTokens_firstKey (m : Key × Json) (rest : List (Key × Json)) (context : List Frame) :
    readTokens (.firstKey context) (memberTokens (m :: rest) ++ [.closeObject]) =
      readTokens (.nextKey [] context) (memberTokens (m :: rest) ++ [.closeObject]) := by
  cases rest <;> rfl

/-- By induction over the value: its parts are read in the context that it opens for them. -/
theorem reads (v : Json) : v.Reads := by
  refine induction ?null ?bool ?number ?string ?array ?object v
  case array =>
    intro items hitems context
    have hopen : readToken (.value context) .openArray = some (.firstItem context) := rfl
    rw [tokens, readTokens_cons hopen]
    cases items with
    | nil => rfl
    | cons v rest =>
      rw [readTokens_firstItem]
      exact readTokens_items hitems (List.cons_ne_nil _ _) [] context
  case object =>
    intro members hmembers context
    have hopen : readToken (.value context) .openObject = some (.firstKey context) := rfl
    rw [tokens, readTokens_cons hopen]
    cases members with
    | nil => rfl
    | cons m rest =>
      rw [readTokens_firstKey]
      exact readTokens_members hmembers (List.cons_ne_nil _ _) [] context
  -- A single token is a whole value.
  all_goals
    intros
    intro context
    rfl

/-- The value that the tokens of a value denote is that value. -/
theorem ofTokens?_tokens (v : Json) : ofTokens? v.tokens = some v := by
  have hread : v.tokens.foldlM readToken (.value []) = some (.finished v []) := v.reads []
  rw [ofTokens?, hread]

/-! ## Parsing texts -/

theorem separated_itemTokens {items : List Json} (h : ∀ v ∈ items, Token.Separated v.tokens) :
    Token.Separated (itemTokens items) := by
  induction items with
  | nil => exact List.isChain_nil
  | cons v rest ih =>
    obtain ⟨hv, hrest⟩ := List.forall_mem_cons.mp h
    cases rest with
    | nil => exact hv
    | cons w more => exact Token.separated_append_cons rfl hv (ih hrest)

theorem separated_memberTokens {members : List (Key × Json)}
    (h : ∀ m ∈ members, Token.Separated m.2.tokens) : Token.Separated (memberTokens members) := by
  induction members with
  | nil => exact List.isChain_nil
  | cons m rest ih =>
    obtain ⟨hm, hrest⟩ := List.forall_mem_cons.mp h
    cases rest with
    | nil => exact Token.separated_cons rfl (Token.separated_cons rfl hm)
    | cons w more =>
      exact Token.separated_cons rfl
        (Token.separated_cons rfl (Token.separated_append_cons rfl hm (ih hrest)))

/-- Between two numbers of a value stands at least a comma. -/
theorem separated_tokens (v : Json) : Token.Separated v.tokens := by
  refine induction (motive := fun v ↦ Token.Separated v.tokens) ?null ?bool ?number ?string ?array
    ?object v
  case array =>
    intro items hitems
    exact Token.separated_cons rfl
      (Token.separated_append_cons rfl (separated_itemTokens hitems) List.isChain_nil)
  case object =>
    intro members hmembers
    exact Token.separated_cons rfl
      (Token.separated_append_cons rfl (separated_memberTokens hmembers) List.isChain_nil)
  all_goals
    intros
    exact List.isChain_singleton _

/-- A value all of whose numbers and strings are well-formed. -/
def WellFormed (v : Json) : Prop :=
  ∀ t ∈ v.tokens, t.WellFormed

theorem wellFormed_number {n : JsonNumber} (h : n.WellFormed) : (number n).WellFormed := by
  intro t ht
  rw [List.mem_singleton.mp ht]
  exact h

theorem wellFormed_array {items : List Json} (h : ∀ v ∈ items, v.WellFormed) :
    (array items).WellFormed := by
  have hitems : ∀ t ∈ itemTokens items, t.WellFormed := by
    induction items with
    | nil => exact List.forall_mem_nil _
    | cons v rest ih =>
      obtain ⟨hv, hrest⟩ := List.forall_mem_cons.mp h
      cases rest with
      | nil => exact hv
      | cons w more =>
        exact List.forall_mem_append.mpr ⟨hv, List.forall_mem_cons.mpr ⟨trivial, ih hrest⟩⟩
  exact List.forall_mem_cons.mpr ⟨trivial, List.forall_mem_append.mpr
    ⟨hitems, List.forall_mem_singleton.mpr trivial⟩⟩

theorem wellFormed_object {members : List (Key × Json)}
    (h : ∀ m ∈ members, (∀ part ∈ m.1, part.WellFormed) ∧ m.2.WellFormed) :
    (object members).WellFormed := by
  have hmembers : ∀ t ∈ memberTokens members, t.WellFormed := by
    induction members with
    | nil => exact List.forall_mem_nil _
    | cons m rest ih =>
      obtain ⟨⟨hkey, hv⟩, hrest⟩ := List.forall_mem_cons.mp h
      cases rest with
      | nil => exact List.forall_mem_cons.mpr ⟨hkey, List.forall_mem_cons.mpr ⟨trivial, hv⟩⟩
      | cons w more =>
        exact List.forall_mem_cons.mpr ⟨hkey, List.forall_mem_cons.mpr ⟨trivial,
          List.forall_mem_append.mpr ⟨hv, List.forall_mem_cons.mpr ⟨trivial, ih hrest⟩⟩⟩⟩
  exact List.forall_mem_cons.mpr ⟨trivial, List.forall_mem_append.mpr
    ⟨hmembers, List.forall_mem_singleton.mpr trivial⟩⟩

theorem text_array (items : List Json) :
    (array items).text = '[' :: [','].intercalate (items.map text) ++ [']'] := by
  have hitems : (itemTokens items).flatMap Token.text = [','].intercalate (items.map text) := by
    induction items with
    | nil => rfl
    | cons v rest ih =>
      cases rest with
      | nil => simp [itemTokens, text]
      | cons w more =>
        calc
          (itemTokens (v :: w :: more)).flatMap Token.text
            = v.text ++ [','] ++ (itemTokens (w :: more)).flatMap Token.text := by
              simp [itemTokens_cons_cons, text, Token.text]
          _ = [','].intercalate ((v :: w :: more).map text) := by
              rw [ih, List.map_cons, List.map_cons, List.map_cons, List.intercalate_cons_cons]
  rw [text, tokens, List.flatMap_cons, List.flatMap_append, hitems]
  rfl

/-- The ways to write a value: its tokens, with any blanks around them. -/
def WrittenAs (v : Json) (text : List Char) : Prop :=
  Token.Spaced v.tokens text

theorem writtenAs_text {v : Json} (h : v.WellFormed) : v.WrittenAs v.text :=
  Token.spaced_texts h

/-- A value is parsed from each of its texts. -/
theorem parse_of_writtenAs {v : Json} {text : List Char} (h : v.WrittenAs text) :
    parse text = some v := by
  rw [parse, Token.lex_of_spaced h v.separated_tokens]
  exact v.ofTokens?_tokens

theorem parse_text_eq_some {v : Json} (h : v.WellFormed) : parse v.text = some v :=
  parse_of_writtenAs (writtenAs_text h)

end Json

end FloatPolynomial
