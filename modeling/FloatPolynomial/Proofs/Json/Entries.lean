import FloatPolynomial.Binary.Encoding
import FloatPolynomial.Proofs.Json.RoundTrip

/-!
# Polynomials from Any JSON Text

Which values denote a term is said of the values alone.  The members of an object are told apart by
how often their names occur, so that neither their order nor any other member matters.  An array
of such values denotes the polynomial of their terms, in whatever way its text writes and spaces it,
and a single value with a wrong name or power keeps the whole array from denoting one.
-/

namespace FloatPolynomial

variable {f : Format}

namespace Json

section Members

variable {members : List (Key × Json)} {named : List (List Char × Json)} {name : String} {v : Json}

/-- How many members of an object have a name. -/
def occurrences (name : String) (members : List (Key × Json)) : Nat :=
  members.countP fun m ↦ StringPart.characters? m.1 = some name.toList

/-- Some member with a name has a value. -/
def HasMember (name : String) (v : Json) (members : List (Key × Json)) : Prop :=
  ∃ m ∈ members, StringPart.characters? m.1 = some name.toList ∧ m.2 = v

/-- The same members, the keys of the second list in characters. -/
def Named (members : List (Key × Json)) (named : List (List Char × Json)) : Prop :=
  List.Forall₂ (fun m n ↦ StringPart.characters? m.1 = some n.1 ∧ m.2 = n.2) members named

theorem namedMembers?_eq_some_iff : namedMembers? members = some named ↔ Named members named := by
  have hmember (m : Key × Json) (n : List Char × Json) :
      ((StringPart.characters? m.1).bind fun characters ↦ some (characters, m.2)) = some n ↔
        StringPart.characters? m.1 = some n.1 ∧ m.2 = n.2 := by
    rw [Option.bind_eq_some_iff]
    constructor
    · rintro ⟨characters, hcharacters, hn⟩
      cases hn
      exact ⟨hcharacters, rfl⟩
    · rintro ⟨hcharacters, hvalue⟩
      exact ⟨n.1, hcharacters, congrArg some (Prod.ext rfl hvalue)⟩
  rw [namedMembers?, mapM_eq_some_iff]
  exact ⟨List.Forall₂.imp fun m n ↦ (hmember m n).mp, List.Forall₂.imp fun m n ↦ (hmember m n).mpr⟩

theorem exists_named_iff :
    (∃ named, Named members named) ↔
      ∀ m ∈ members, ∃ characters, StringPart.characters? m.1 = some characters := by
  induction members with
  | nil => exact iff_of_true ⟨[], .nil⟩ (List.forall_mem_nil _)
  | cons m rest ih =>
    rw [List.forall_mem_cons, ← ih]
    constructor
    · rintro ⟨_, hnamed⟩
      cases hnamed with
      | cons hm hrest => exact ⟨⟨_, hm.1⟩, _, hrest⟩
    · rintro ⟨⟨characters, hcharacters⟩, named, hnamed⟩
      exact ⟨(characters, m.2) :: named, .cons ⟨hcharacters, rfl⟩ hnamed⟩

theorem Named.countP_eq (h : Named members named) (name : String) :
    named.countP (fun n ↦ n.1 == name.toList) = occurrences name members := by
  unfold occurrences
  induction h with
  | nil => rfl
  | cons hm _ ih => simp [List.countP_cons, ih, hm.1]

theorem Named.mem_iff (h : Named members named) (name : String) (v : Json) :
    (name.toList, v) ∈ named ↔ HasMember name v members := by
  unfold HasMember
  induction h with
  | nil => simp
  | cons hm _ ih =>
    rw [List.mem_cons, ih, List.exists_mem_cons_iff, hm.1, hm.2, Option.some.injEq, Prod.ext_iff,
      eq_comm, eq_comm (a := v)]

theorem uniqueMember?_eq_some_iff {characters : List Char} :
    uniqueMember? characters named = some v ↔
      named.countP (fun n ↦ n.1 == characters) = 1 ∧ (characters, v) ∈ named := by
  have hmem : (characters, v) ∈ named ↔
      (characters, v) ∈ named.filter fun n ↦ n.1 == characters := by
    rw [List.mem_filter, beq_self_eq_true, and_iff_left rfl]
  have hown : ∀ n ∈ named.filter fun n ↦ n.1 == characters, n.1 = characters :=
    fun n hn ↦ eq_of_beq (List.mem_filter.mp hn).2
  rw [hmem, List.countP_eq_length_filter, uniqueMember?]
  split
  · rename_i own w hfilter
    rw [hfilter] at hown ⊢
    obtain rfl : own = characters := hown _ (List.mem_singleton_self _)
    simp [eq_comm]
  · rename_i hother
    refine iff_of_false (Option.some_ne_none v).symm fun h ↦ ?_
    obtain ⟨⟨own, w⟩, hfilter⟩ := List.length_eq_one_iff.mp h.1
    exact hother own w hfilter

/-- A name is looked up with success if it occurs once. -/
theorem Named.uniqueMember?_eq_some_iff (h : Named members named) :
    uniqueMember? name.toList named = some v ↔
      occurrences name members = 1 ∧ HasMember name v members := by
  rw [Json.uniqueMember?_eq_some_iff, h.countP_eq, h.mem_iff]

end Members

/-- A power is a number in digits alone. -/
def DenotesPower (power : UInt32) (v : Json) : Prop :=
  ∃ whole, v = .number { whole } ∧ ofDigits whole = power.toNat

/-- No power is denoted by a negative number, by one with a fraction or an exponent, or by one that
is too great. -/
theorem exists_denotesPower_iff {n : JsonNumber} :
    (∃ power, DenotesPower power (.number n)) ↔
      n.negative = false ∧ n.fraction = [] ∧ n.exponent = none ∧
        ofDigits n.whole < UInt32.size := by
  constructor
  · rintro ⟨power, whole, hnumber, hwhole⟩
    cases hnumber
    exact ⟨rfl, rfl, rfl, hwhole ▸ power.toNat_lt_size⟩
  · obtain ⟨negative, whole, fraction, exponent⟩ := n
    rintro ⟨rfl, rfl, rfl, hlt⟩
    exact ⟨UInt32.ofNat (ofDigits whole), whole, rfl, (UInt32.toNat_ofNat_of_lt' hlt).symm⟩

/-- The values that denote a term: an object in which each of the two names occurs once, or the two
values alone. -/
inductive DenotesTerm (n : JsonNumber) (power : UInt32) : Json → Prop
  | object {members : List (Key × Json)} {v : Json}
      (keys : ∀ m ∈ members, ∃ characters, StringPart.characters? m.1 = some characters)
      (multiplier_once : occurrences multiplierName members = 1)
      (multiplier_value : HasMember multiplierName (.number n) members)
      (power_once : occurrences powerName members = 1)
      (power_value : HasMember powerName v members) (denotes : DenotesPower power v) :
      DenotesTerm n power (.object members)
  | pair {v : Json} (denotes : DenotesPower power v) : DenotesTerm n power (.array [.number n, v])

theorem coefficientOfJson?_eq_some_iff {v : Json} {x : Binary f} :
    coefficientOfJson? f v = some x ↔
      ∃ n, v = .number n ∧ (n.toBinary .double).isFinite = true ∧ x = n.toCoefficient f := by
  cases v with
  | number n =>
    rw [coefficientOfJson?, Option.ite_none_right_eq_some, Option.some.injEq, eq_comm (b := x)]
    simp
  | _ => simp [coefficientOfJson?]

theorem powerOfJson?_eq_some_iff {v : Json} {power : UInt32} :
    powerOfJson? v = some power ↔ DenotesPower power v := by
  constructor
  · intro h
    cases v with
    | number n =>
      obtain ⟨negative, whole, fraction, exponent⟩ := n
      rw [powerOfJson?, Option.bind_eq_bind, Option.bind_eq_some_iff] at h
      obtain ⟨value, hvalue, h⟩ := h
      rw [JsonNumber.natural?, Option.ite_none_right_eq_some, Option.some.injEq] at hvalue
      rw [Option.ite_none_right_eq_some, Option.some.injEq] at h
      simp only [Bool.and_eq_true, Bool.not_eq_true', List.isEmpty_iff,
        Option.isNone_iff_eq_none] at hvalue
      obtain ⟨⟨⟨rfl, rfl⟩, rfl⟩, rfl⟩ := hvalue
      obtain ⟨hlt, rfl⟩ := h
      exact ⟨whole, rfl, (UInt32.toNat_ofNat_of_lt' hlt).symm⟩
    | _ => cases h
  · rintro ⟨whole, rfl, hwhole⟩
    change (if ofDigits whole < UInt32.size then some (UInt32.ofNat (ofDigits whole)) else none) = _
    rw [hwhole, if_pos power.toNat_lt_size, UInt32.ofNat_toNat]

theorem termOfValues?_eq_some_iff {multiplier power : Json} {t : Term f} :
    termOfValues? f multiplier power = some t ↔
      coefficientOfJson? f multiplier = some t.coefficient ∧
        powerOfJson? power = some t.power := by
  rw [termOfValues?, Option.bind_eq_bind, Option.bind_eq_some_iff]
  constructor
  · rintro ⟨x, hx, h⟩
    obtain ⟨k, hk, h⟩ := Option.bind_eq_some_iff.mp h
    cases h
    exact ⟨hx, hk⟩
  · rintro ⟨hx, hk⟩
    exact ⟨_, hx, Option.bind_eq_some_iff.mpr ⟨_, hk, rfl⟩⟩

theorem termOfValues?_number {v w : Json} {t : Term f} (h : termOfValues? f v w = some t) :
    ∃ n, v = .number n ∧ DenotesPower t.power w ∧ (n.toBinary .double).isFinite = true ∧
      t = ⟨n.toCoefficient f, t.power⟩ := by
  obtain ⟨hcoefficient, hpower⟩ := termOfValues?_eq_some_iff.mp h
  obtain ⟨n, rfl, hfinite, hvalue⟩ := coefficientOfJson?_eq_some_iff.mp hcoefficient
  exact ⟨n, rfl, powerOfJson?_eq_some_iff.mp hpower, hfinite, congrArg (Term.mk · t.power) hvalue⟩

theorem termOfJson?_object {members : List (Key × Json)} {t : Term f} :
    Term.ofJson? f (.object members) = some t ↔
      (∀ m ∈ members, ∃ characters, StringPart.characters? m.1 = some characters) ∧
        ∃ v w, (occurrences multiplierName members = 1 ∧ HasMember multiplierName v members) ∧
          (occurrences powerName members = 1 ∧ HasMember powerName w members) ∧
          termOfValues? f v w = some t := by
  have hread : Term.ofJson? f (.object members) =
      (namedMembers? members).bind fun named ↦
        (uniqueMember? multiplierName.toList named).bind fun v ↦
          (uniqueMember? powerName.toList named).bind fun w ↦ termOfValues? f v w := rfl
  rw [hread, ← exists_named_iff]
  simp only [Option.bind_eq_some_iff, namedMembers?_eq_some_iff]
  constructor
  · rintro ⟨named, hnamed, v, hv, w, hw, ht⟩
    exact ⟨⟨named, hnamed⟩, v, w, hnamed.uniqueMember?_eq_some_iff.mp hv,
      hnamed.uniqueMember?_eq_some_iff.mp hw, ht⟩
  · rintro ⟨⟨named, hnamed⟩, v, w, hv, hw, ht⟩
    exact ⟨named, hnamed, v, hnamed.uniqueMember?_eq_some_iff.mpr hv, w,
      hnamed.uniqueMember?_eq_some_iff.mpr hw, ht⟩

theorem exists_denotesTerm {v : Json} {t : Term f} (h : Term.ofJson? f v = some t) :
    ∃ n, DenotesTerm n t.power v ∧ (n.toBinary .double).isFinite = true ∧
      t = ⟨n.toCoefficient f, t.power⟩ := by
  unfold Term.ofJson? at h
  split at h
  · obtain ⟨hkeys, v, w, hv, hw, ht⟩ := termOfJson?_object.mp h
    obtain ⟨n, rfl, hpower, hvalue⟩ := termOfValues?_number ht
    exact ⟨n, .object hkeys hv.1 hv.2 hw.1 hw.2 hpower, hvalue⟩
  · obtain ⟨n, rfl, hpower, hvalue⟩ := termOfValues?_number h
    exact ⟨n, .pair hpower, hvalue⟩
  · cases h

theorem termOfJson?_of_denotesTerm {n : JsonNumber} {power : UInt32} {v : Json}
    (h : DenotesTerm n power v) (hfinite : (n.toBinary .double).isFinite = true) :
    Term.ofJson? f v = some ⟨n.toCoefficient f, power⟩ := by
  have hvalues {w : Json} (hpower : DenotesPower power w) :
      termOfValues? f (.number n) w = some ⟨n.toCoefficient f, power⟩ :=
    termOfValues?_eq_some_iff.mpr ⟨coefficientOfJson?_eq_some_iff.mpr ⟨n, rfl, hfinite, rfl⟩,
      powerOfJson?_eq_some_iff.mpr hpower⟩
  cases h with
  | object hkeys hmultiplier hvalue hpower hown hdenotes =>
    exact termOfJson?_object.mpr
      ⟨hkeys, _, _, ⟨hmultiplier, hvalue⟩, ⟨hpower, hown⟩, hvalues hdenotes⟩
  | pair hdenotes => exact hvalues hdenotes

/-! ## Values that denote no term -/

/-- A name that is missing or repeated, a power that is none, or not two values. -/
inductive Misfit : Json → Prop
  | name {members : List (Key × Json)} {name : String}
      (name_eq : name = multiplierName ∨ name = powerName) (once : occurrences name members ≠ 1) :
      Misfit (.object members)
  | power {members : List (Key × Json)} {v : Json} (power_value : HasMember powerName v members)
      (not_power : ∀ power, ¬DenotesPower power v) : Misfit (.object members)
  | pair {v w : Json} (not_power : ∀ power, ¬DenotesPower power w) : Misfit (.array [v, w])
  | length {items : List Json} (length_ne : items.length ≠ 2) : Misfit (.array items)

theorem HasMember.unique {name : String} {v w : Json} {members : List (Key × Json)}
    (honce : occurrences name members = 1) (hv : HasMember name v members)
    (hw : HasMember name w members) : v = w := by
  obtain ⟨m, hm, hmname, rfl⟩ := hv
  obtain ⟨n, hn, hnname, rfl⟩ := hw
  rw [occurrences, List.countP_eq_length_filter] at honce
  obtain ⟨own, hown⟩ := List.length_eq_one_iff.mp honce
  have honly {m : Key × Json} (hm : m ∈ members)
      (hname : StringPart.characters? m.1 = some name.toList) : m = own := by
    rw [← List.mem_singleton, ← hown, List.mem_filter]
    exact ⟨hm, decide_eq_true hname⟩
  rw [honly hm hmname, honly hn hnname]

theorem Misfit.not_denotesTerm {v : Json} (h : v.Misfit) (n : JsonNumber) (power : UInt32) :
    ¬DenotesTerm n power v := by
  intro hterm
  cases h with
  | name hname hcount =>
    cases hterm with
    | object _ hmultiplier _ hpower =>
      rcases hname with rfl | rfl
      · exact hcount hmultiplier
      · exact hcount hpower
  | power hmember hnot =>
    cases hterm with
    | object _ _ _ honce hown hdenotes =>
      rw [HasMember.unique honce hown hmember] at hdenotes
      exact hnot power hdenotes
  | pair hnot =>
    cases hterm with
    | pair hdenotes => exact hnot power hdenotes
  | length hlength =>
    cases hterm with
    | pair => exact hlength rfl

/-- The keys of an object with given names have these characters. -/
theorem exists_characters_of_ofNames {members : List (String × Json)} :
    ∀ m ∈ members.map fun m ↦ (Key.ofString m.1, m.2),
      ∃ characters, StringPart.characters? m.1 = some characters := by
  rw [List.forall_mem_map]
  exact fun m _ ↦ ⟨m.1.toList, StringPart.characters?_map_char _⟩

theorem hasMember_ofNames {members : List (String × Json)} {name : String} {v : Json}
    (h : (name, v) ∈ members) :
    HasMember name v (members.map fun m ↦ (Key.ofString m.1, m.2)) :=
  ⟨_, List.mem_map_of_mem h, StringPart.characters?_map_char _, rfl⟩

/-- The first number of a list of pairs may be spelled in any way, with blanks in front of its
pair. -/
theorem writtenAs_array_pair {n power : JsonNumber} {others : List Json}
    {blanks text whole : List Char} (hblanks : ∀ c ∈ blanks, Token.isBlank c = true)
    (hn : n.WrittenAs text) (hpower : power.WellFormed) (hothers : ∀ v ∈ others, v.WellFormed)
    (hwhole : whole = ['['] ++ (blanks ++ (['['] ++ (text ++
      ((array (array [number n, number power] :: others)).tokens.drop 3).flatMap Token.text)))) :
    (array (array [number n, number power] :: others)).WrittenAs whole := by
  have hitems : (array (array [number n, number power] :: others)).WellFormed :=
    wellFormed_array (List.forall_mem_cons.mpr ⟨wellFormed_array (List.forall_mem_cons.mpr
      ⟨wellFormed_number hn.1, List.forall_mem_singleton.mpr (wellFormed_number hpower)⟩), hothers⟩)
  have hrest := Token.spaced_texts fun t ht ↦ hitems t (List.mem_of_mem_drop (i := 3) ht)
  have htokens : (array (array [number n, number power] :: others)).tokens =
      .openArray :: .openArray :: .number n ::
        (array (array [number n, number power] :: others)).tokens.drop 3 := by
    cases others with
    | nil => rfl
    | cons v rest => rfl
  rw [WrittenAs, htokens, hwhole]
  exact @Token.Spaced.cons [] ['['] _ .openArray _ (List.forall_mem_nil _) rfl
    (@Token.Spaced.cons blanks ['['] _ .openArray _ hblanks rfl
      (@Token.Spaced.cons [] text _ (.number n) _ (List.forall_mem_nil _) hn hrest))

end Json

theorem Poly.ofJson?_of_denotesTerm {entries : List (JsonNumber × UInt32)} {items : List Json}
    (h : List.Forall₂ (fun entry v ↦ Json.DenotesTerm entry.1 entry.2 v) entries items)
    (hfinite : ∀ entry ∈ entries, (entry.1.toBinary .double).isFinite = true) :
    Poly.ofJson? f (.array items) =
      some (ofTerms (entries.map fun entry ↦ ⟨entry.1.toCoefficient f, entry.2⟩)) := by
  have hterms : items.mapM (Term.ofJson? f) =
      some (entries.map fun entry ↦ ⟨entry.1.toCoefficient f, entry.2⟩) := by
    rw [mapM_eq_some_iff, List.forall₂_map_right_iff]
    have hboth := (List.forall₂_and_left ..).mpr ⟨hfinite, h⟩
    exact (hboth.imp fun entry v hentry ↦ Json.termOfJson?_of_denotesTerm hentry.2 hentry.1).flip
  rw [Poly.ofJson?, hterms]
  rfl

theorem Poly.ofJson?_of_misfit {items : List Json} {v : Json} (hmem : v ∈ items)
    (h : v.Misfit) : Poly.ofJson? f (.array items) = none := by
  have hnone : Term.ofJson? f v = none := by
    refine Option.eq_none_iff_forall_ne_some.mpr fun t ht ↦ ?_
    obtain ⟨n, hdenotes, -⟩ := Json.exists_denotesTerm ht
    exact h.not_denotesTerm n t.power hdenotes
  rw [Poly.ofJson?, mapM_eq_none_of_mem hmem hnone]
  rfl

/-- An array denotes the polynomial of the terms that its items denote, in their order and in
whatever way it is written, with their correctly rounded values in the 64-bit format and with these
values converted in another one; with one item whose names or power are wrong it denotes none. -/
theorem Poly.readJson?_array {items : List Json} {text : List Char}
    (htext : (Json.array items).WrittenAs text) :
    (∀ entries : List (JsonNumber × UInt32),
      List.Forall₂ (fun entry v ↦ Json.DenotesTerm entry.1 entry.2 v) entries items →
      (∀ entry ∈ entries, (entry.1.magnitude.nearest .double entry.1.negative).isFinite = true) →
      Poly.readJson? .double text = some (ofTerms (entries.map fun entry ↦
        ⟨entry.1.magnitude.nearest .double entry.1.negative, entry.2⟩)) ∧
      Poly.readJson? f text = some (ofTerms (entries.map fun entry ↦
        ⟨entry.1.toCoefficient f, entry.2⟩))) ∧
    ((∃ v ∈ items, v.Misfit) → Poly.readJson? f text = none) := by
  have hread (g : Format) : Poly.readJson? g text = Poly.ofJson? g (.array items) := by
    rw [Poly.readJson?, Json.parse_of_writtenAs htext]
    rfl
  rw [hread, hread]
  constructor
  · simp only [← Decimal.toBinary_eq_nearest]
    intro entries h hfinite
    have hdouble := Poly.ofJson?_of_denotesTerm (f := .double) h hfinite
    simp only [JsonNumber.toCoefficient_double] at hdouble
    exact ⟨hdouble, Poly.ofJson?_of_denotesTerm h hfinite⟩
  · rintro ⟨v, hmem, hmisfit⟩
    exact Poly.ofJson?_of_misfit hmem hmisfit

/-- The terms `2x^3` and `-1.5x^3`, the first one written as a pair with a blank and an exponent and
the second one as an object with its power first, are read as `0.5x^3`; without the multiplier of
the second one nothing is read. -/
theorem Poly.readJson?_array_mixed :
    (∃ p : Poly .double, p.terms = [⟨Binary.ofBits .double 0x3fe0000000000000, 3⟩] ∧
      Poly.readJson? .double
        "[ [2E+0,3],\x7b\"power\":3,\"note\":null,\"multiplier\":-1.5\x7d]".toList = some p) ∧
    Poly.readJson? .double "[\x7b\"power\":3,\"note\":null\x7d]".toList = none := by
  let two : JsonNumber := { whole := ['2'], exponent := some 0 }
  let three : JsonNumber := { whole := ['3'] }
  let half : JsonNumber := { negative := true, whole := ['1'], fraction := ['5'] }
  let others : List (String × Json) := [(powerName, .number three), ("note", .null)]
  let members : List (String × Json) := others ++ [(multiplierName, .number half)]
  have hthree : three.WellFormed := JsonNumber.wellFormed_of_whole_eq_singleton rfl rfl
  have hpower : Json.DenotesPower 3 (.number three) := ⟨['3'], rfl, rfl⟩
  have hothers : ∀ m ∈ others, m.2.WellFormed :=
    List.forall_mem_cons.mpr ⟨Json.wellFormed_number hthree,
      List.forall_mem_singleton.mpr (List.forall_mem_singleton.mpr trivial)⟩
  constructor
  · have htwo : two.WrittenAs ['2', 'E', '+', '0'] :=
      ⟨JsonNumber.wellFormed_of_whole_eq_singleton rfl rfl, _,
        @JsonNumber.ExponentWritten.present 'E' false ['+'] ['0'] (Or.inr rfl)
          (List.mem_cons_of_mem _ (List.mem_singleton_self _)) (List.forall_mem_singleton.mpr rfl)
          (List.cons_ne_nil _ _), rfl⟩
    have hvalues : ∀ m ∈ members, m.2.WellFormed :=
      List.forall_mem_append.mpr ⟨hothers, List.forall_mem_singleton.mpr
        (Json.wellFormed_number (JsonNumber.wellFormed_of_whole_eq_singleton rfl rfl))⟩
    have hobject : (Json.ofNames members).WellFormed := by
      apply Json.wellFormed_ofNames _ hvalues
      simp [members, others, isPlainName, multiplierName, powerName]
    have hwritten := @Json.writtenAs_array_pair two three [Json.ofNames members] [' '] _
      "[ [2E+0,3],\x7b\"power\":3,\"note\":null,\"multiplier\":-1.5\x7d]".toList
      (List.forall_mem_singleton.mpr rfl) htwo hthree (List.forall_mem_singleton.mpr hobject)
      (by decide +kernel)
    have hterm : Json.DenotesTerm half 3 (Json.ofNames members) :=
      .object Json.exists_characters_of_ofNames (by decide)
        (Json.hasMember_ofNames (List.mem_append_right _ (List.mem_singleton_self _))) (by decide)
        (Json.hasMember_ofNames List.mem_cons_self) hpower
    have hread := (@readJson?_array .double _ _ hwritten).1 [(two, 3), (half, 3)]
      (.cons (.pair hpower) (.cons hterm .nil)) (by decide +kernel)
    refine ⟨_, ?_, hread.1⟩
    let read : List (Term .double) :=
      [⟨two.magnitude.nearest .double false, 3⟩, ⟨half.magnitude.nearest .double true, 3⟩]
    have hsorted : sortTerms read = read :=
      sortTerms_eq_self (List.pairwise_pair.mpr (UInt32.le_refl 3))
    change canonicalize read = _
    rw [canonicalize, hsorted]
    decide +kernel
  · have hobject : (Json.ofNames others).WellFormed := by
      refine Json.wellFormed_ofNames ?_ hothers
      simp [others, isPlainName, powerName]
    have htext : (Json.array [Json.ofNames others]).text =
        "[\x7b\"power\":3,\"note\":null\x7d]".toList := by decide +kernel
    have hwritten := Json.writtenAs_text
      (Json.wellFormed_array (List.forall_mem_singleton.mpr hobject))
    rw [htext] at hwritten
    have hmisfit : Json.Misfit (Json.ofNames others) := .name (Or.inl rfl) (by decide)
    exact (readJson?_array hwritten).2 ⟨_, List.mem_singleton_self _, hmisfit⟩

end FloatPolynomial
