import FloatPolynomial.Json.Token
import FloatPolynomial.Proofs.Json.Number
import Mathlib.Data.List.Chain

/-!
# Written Tokens Are Read

Every token is scanned from each of the texts in which it may be written.  What follows the text
matters only after a number, which more digits would continue, so a sequence of tokens is read back
from the texts one after another, with any blanks between them, as long as no number stands next to
another one.
-/

namespace FloatPolynomial

/-- A character that need not be escaped, except for a quote or a backslash, or a code of 16
bits. -/
def StringPart.WellFormed : StringPart → Prop
  | char c => 0x20 ≤ c.toNat
  | unit code => code < 0x10000

namespace Token

theorem hexValue?_hexChar {value : Nat} (h : value < 16) :
    hexValue? (hexChar value) = some value := by
  have hvalue : ∀ value < 16, hexValue? (hexChar value) = some value := by decide
  exact hvalue value h

theorem hexUnit?_hexChar {code : Nat} (h : code < 0x10000) :
    hexUnit? (hexChar (code / 0x1000 % 16)) (hexChar (code / 0x100 % 16))
      (hexChar (code / 0x10 % 16)) (hexChar (code % 16)) = some code := by
  have hdigit (value : Nat) : hexValue? (hexChar (value % 16)) = some (value % 16) :=
    hexValue?_hexChar (Nat.mod_lt value (by decide))
  have hcode : ((code / 0x1000 % 16 * 16 + code / 0x100 % 16) * 16 + code / 0x10 % 16) * 16 +
      code % 16 = code := by omega
  simp only [hexUnit?, hdigit, Option.bind_eq_bind, Option.bind_some, Option.pure_def, hcode]

/-- The characters with a short escape, after the letters of their escapes. -/
def shortEscapes : List (Char × Char) :=
  [('"', '"'), ('\\', '\\'), ('/', '/'), ('b', '\x08'), ('f', '\x0C'), ('n', '\n'), ('r', '\r'),
    ('t', '\t')]

/-- The ways to write a part of a string. -/
inductive PartWritten : StringPart → List Char → Prop
  | plain {c : Char} (printable : 0x20 ≤ c.toNat) (ne_quote : c ≠ '"') (ne_backslash : c ≠ '\\') :
      PartWritten (.char c) [c]
  | escape {letter c : Char} (mem : (letter, c) ∈ shortEscapes) :
      PartWritten (.char c) ['\\', letter]
  | unit {a b c d : Char} {code : Nat} (value : hexUnit? a b c d = some code) :
      PartWritten (.unit code) ['\\', 'u', a, b, c, d]

theorem partWritten_partText {part : StringPart} (h : part.WellFormed) :
    PartWritten part (partText part) := by
  cases part with
  | char c =>
    rw [partText]
    split
    · rename_i hescaped
      rcases hescaped with rfl | rfl
      all_goals
        apply PartWritten.escape
        simp [shortEscapes]
    · rename_i hplain
      rw [not_or] at hplain
      rw [if_neg (Nat.not_lt.mpr h)]
      exact .plain h hplain.1 hplain.2
  | unit code => exact .unit (hexUnit?_hexChar h)

theorem scanString_escape {letter c : Char} (h : (letter, c) ∈ shortEscapes) (text : List Char) :
    scanString ('\\' :: letter :: text) =
      (scanString text).map fun scanned ↦ (.char c :: scanned.1, scanned.2) := by
  simp only [shortEscapes, List.mem_cons, Prod.mk.injEq, List.not_mem_nil, or_false] at h
  rcases h with ⟨rfl, rfl⟩ | ⟨rfl, rfl⟩ | ⟨rfl, rfl⟩ | ⟨rfl, rfl⟩ | ⟨rfl, rfl⟩ | ⟨rfl, rfl⟩ |
    ⟨rfl, rfl⟩ | ⟨rfl, rfl⟩
  all_goals
    change (scanString text).bind _ = _
    cases scanString text <;> rfl

/-- A part of a string is scanned in front of the other ones. -/
theorem scanString_append {part : StringPart} {front : List Char} (h : PartWritten part front)
    (text : List Char) :
    scanString (front ++ text) =
      (scanString text).map fun scanned ↦ (part :: scanned.1, scanned.2) := by
  cases h with
  | @plain c hprintable hquote hbackslash =>
    rw [List.singleton_append, scanString]
    · rw [if_neg (Nat.not_lt.mpr hprintable)]
      cases scanString text <;> rfl
    -- Neither the end of the string nor an escape begins with the character.
    · exact hquote
    · exact fun a b c' d rest heq _ ↦ hbackslash heq
    · exact fun e rest heq _ ↦ hbackslash heq
  | escape hmem => exact scanString_escape hmem text
  | unit hvalue =>
    simp only [List.cons_append, List.nil_append]
    rw [scanString, hvalue]
    cases scanString text <;> rfl

/-- A string is scanned to its closing quote. -/
theorem scanString_parts {parts : List StringPart} {texts : List (List Char)}
    (h : List.Forall₂ PartWritten parts texts) (rest : List Char) :
    scanString (texts.flatten ++ '"' :: rest) = some (parts, rest) := by
  induction h with
  | nil => rfl
  | cons hpart _ ih =>
    rw [List.flatten_cons, List.append_assoc, scanString_append hpart, ih, Option.map_some]

/-- Only the parts of a number or a string can be written in a way that is not read. -/
def WellFormed : Token → Prop
  | number n => n.WellFormed
  | string parts => ∀ part ∈ parts, part.WellFormed
  | _ => True

/-- Whether the token is a number. -/
def isNumber : Token → Bool
  | number _ => true
  | _ => false

/-- A text that begins as a number does is scanned as a number. -/
theorem scan_of_number {c : Char} {tail rest : List Char} {n : JsonNumber}
    (hfirst : c = '-' ∨ c.isDigit = true) (h : JsonNumber.scan (c :: tail) = some (n, rest)) :
    scan (c :: tail) = some (number n, rest) := by
  have hne {d : Char} (hminus : d ≠ '-') (hdigit : d.isDigit = false) (more : List Char) :
      c :: tail ≠ d :: more := by
    intro heq
    obtain ⟨rfl, -⟩ := List.cons.inj heq
    rcases hfirst with hfirst | hfirst
    · exact hminus hfirst
    · exact Bool.false_ne_true (hdigit.symm.trans hfirst)
  rw [scan]
  · rw [h]
    rfl
  -- All other tokens begin with a character that is neither a minus sign nor a digit.
  all_goals exact fun _ ↦ hne (by decide) rfl _

/-- The ways to write a token, which differ for numbers and strings alone. -/
def WrittenAs : Token → List Char → Prop
  | number n, text => n.WrittenAs text
  | string parts, text =>
    ∃ texts, List.Forall₂ PartWritten parts texts ∧ text = '"' :: (texts.flatten ++ ['"'])
  | t, text => text = t.text

theorem writtenAs_text {t : Token} (h : t.WellFormed) : t.WrittenAs t.text := by
  cases t with
  | number n => exact JsonNumber.writtenAs_text h
  | string parts =>
    refine ⟨parts.map partText, ?_, ?_⟩
    · rw [List.forall₂_map_right_iff, List.forall₂_same]
      exact fun part hpart ↦ partWritten_partText (h part hpart)
    · rw [text, List.flatMap_def, List.cons_append]
  | _ => rfl

/-- A token is scanned from each of its texts, also in front of more text. -/
theorem scan_append {t : Token} {text rest : List Char} (h : t.WrittenAs text)
    (hstop : t.isNumber = true → ∀ c ∈ rest.head?, JsonNumber.continues c = false) :
    scan (text ++ rest) = some (t, rest) := by
  cases t with
  | bool value =>
    obtain rfl : text = _ := h
    cases value <;> rfl
  | number n =>
    have hscan := JsonNumber.scan_append h (hstop rfl)
    obtain ⟨c, tail, rfl, hsign⟩ := JsonNumber.WrittenAs.exists_eq_cons h
    have hfirst : c = '-' ∨ c.isDigit = true := by
      split at hsign
      · exact Or.inl hsign
      · exact Or.inr hsign
    exact scan_of_number hfirst hscan
  | string parts =>
    obtain ⟨texts, hparts, rfl⟩ := h
    rw [List.cons_append, List.append_assoc, List.singleton_append, scan, scanString_parts hparts]
    rfl
  | _ =>
    obtain rfl : text = _ := h
    rfl

theorem scan_blank {c : Char} (h : isBlank c = true) (rest : List Char) :
    scan (c :: rest) = none := by
  simp only [isBlank, Bool.or_eq_true, beq_iff_eq, or_assoc] at h
  rcases h with rfl | rfl | rfl | rfl <;> rfl

/-! ## Sequences of tokens -/

/-- The first token of a text is the one that is scanned. -/
theorem lex_of_scan {text rest : List Char} {t : Token} (h : scan text = some (t, rest)) :
    lex text = (lex rest).map (t :: ·) := by
  cases text with
  | nil => cases h
  | cons c tail =>
    have hblank : isBlank c = false := by
      cases hc : isBlank c with
      | false => rfl
      | true => exact absurd (h.symm.trans (scan_blank hc tail)) (Option.some_ne_none _)
    rw [lex, hblank, if_neg Bool.false_ne_true]
    split
    · rename_i hnone
      exact absurd (h.symm.trans hnone) (Option.some_ne_none _)
    · rename_i hscan
      rw [h] at hscan
      cases hscan
      cases lex rest <;> rfl

/-- No number stands next to another one. -/
def Separated (ts : List Token) : Prop :=
  ts.IsChain fun s t ↦ s.isNumber = false ∨ t.isNumber = false

theorem separated_append_cons {before after : List Token} {t : Token} (ht : t.isNumber = false)
    (hbefore : Separated before) (hafter : Separated after) :
    Separated (before ++ t :: after) := by
  refine List.isChain_append.mpr ⟨hbefore, List.isChain_cons.mpr ⟨?_, hafter⟩, ?_⟩
  · exact fun _ _ ↦ Or.inl ht
  · rintro s - u ⟨⟩
    exact Or.inr ht

theorem separated_cons {t : Token} {ts : List Token} (ht : t.isNumber = false)
    (hts : Separated ts) : Separated (t :: ts) :=
  separated_append_cons ht List.isChain_nil hts

/-- No text of a token other than a number continues a number. -/
theorem continues_head? {t : Token} {text : List Char} (hnumber : t.isNumber = false)
    (h : t.WrittenAs text) (rest : List Char) :
    ∀ c ∈ (text ++ rest).head?, JsonNumber.continues c = false := by
  cases t with
  | number n => cases hnumber
  | bool value =>
    obtain rfl : text = _ := h
    cases value <;> rintro c ⟨⟩ <;> rfl
  | string parts =>
    obtain ⟨texts, -, rfl⟩ := h
    rintro c ⟨⟩
    rfl
  | _ =>
    obtain rfl : text = _ := h
    rintro c ⟨⟩
    rfl

theorem continues_of_isBlank {c : Char} (h : isBlank c = true) :
    JsonNumber.continues c = false := by
  simp only [isBlank, Bool.or_eq_true, beq_iff_eq, or_assoc] at h
  rcases h with rfl | rfl | rfl | rfl <;> rfl

theorem lex_blanks_append {blanks : List Char} (h : ∀ c ∈ blanks, isBlank c = true)
    (text : List Char) : lex (blanks ++ text) = lex text := by
  induction blanks with
  | nil => rfl
  | cons c rest ih =>
    obtain ⟨hc, hrest⟩ := List.forall_mem_cons.mp h
    rw [List.cons_append, lex, if_pos hc, ih hrest]

/-- The ways to write a sequence of tokens: one after another, with any blanks around them. -/
inductive Spaced : List Token → List Char → Prop
  | nil {blanks : List Char} (isBlank_of_mem : ∀ c ∈ blanks, isBlank c = true) : Spaced [] blanks
  | cons {blanks text rest : List Char} {t : Token} {ts : List Token}
      (isBlank_of_mem : ∀ c ∈ blanks, isBlank c = true) (written : t.WrittenAs text)
      (spaced : Spaced ts rest) : Spaced (t :: ts) (blanks ++ (text ++ rest))

theorem spaced_texts {ts : List Token} (h : ∀ t ∈ ts, t.WellFormed) :
    Spaced ts (ts.flatMap text) := by
  induction ts with
  | nil => exact .nil (List.forall_mem_nil _)
  | cons t others ih =>
    obtain ⟨ht, hothers⟩ := List.forall_mem_cons.mp h
    exact .cons (List.forall_mem_nil _) (writtenAs_text ht) (ih hothers)

/-- What follows a token does not continue it, unless both are numbers. -/
theorem Spaced.continues_head? {ts : List Token} {text : List Char} (h : Spaced ts text)
    (hnumber : ∀ t ∈ ts.head?, t.isNumber = false) :
    ∀ c ∈ text.head?, JsonNumber.continues c = false := by
  cases h with
  | nil hblanks => exact fun c hc ↦ continues_of_isBlank (hblanks c (List.mem_of_mem_head? hc))
  | @cons blanks text rest t ts hblanks ht _ =>
    cases blanks with
    | nil => exact Token.continues_head? (hnumber t rfl) ht rest
    | cons b others =>
      rintro c ⟨⟩
      exact continues_of_isBlank (hblanks b List.mem_cons_self)

/-- Tokens are read from every text that is written for them. -/
theorem lex_of_spaced {ts : List Token} {text : List Char} (h : Spaced ts text)
    (hseparated : Separated ts) : lex text = some ts := by
  induction h with
  | nil hblanks =>
    have hlex := lex_blanks_append hblanks []
    rw [List.append_nil] at hlex
    rw [hlex, lex]
  | @cons blanks text rest t ts hblanks ht hrest ih =>
    obtain ⟨hnext, hothers⟩ := List.isChain_cons.mp hseparated
    have hstop : t.isNumber = true → ∀ c ∈ rest.head?, JsonNumber.continues c = false := by
      intro hnumber
      refine hrest.continues_head? fun u hu ↦ ?_
      exact (hnext u hu).resolve_left (Bool.not_eq_false _ ▸ hnumber)
    rw [lex_blanks_append hblanks, lex_of_scan (scan_append ht hstop), ih hothers, Option.map_some]

end Token

end FloatPolynomial
