import FloatPolynomial.Proofs.CheckedTerms

/-!
# Runs with Assertions

One step keeps the registers equal to those of the session on polynomials, and its result is that
of an operation on polynomials.  By induction no run fails an assertion, and every list in a
register is canonical.
-/

namespace FloatPolynomial

namespace CheckedSession

open CheckedTerms

variable {f : Format}

theorem resolve_terms (registers : Registers f) (operand : Operand f) :
    resolve (registers.map Poly.terms) operand = bare (Session.resolve registers operand) := by
  cases operand with
  | text text =>
    rw [resolve, Session.resolve, Poly.parse]
    cases readTerms f text with
    | error e => rfl
    | ok terms => exact build_eq terms
  | terms terms => exact build_eq terms
  | register index =>
    simp only [resolve, Session.resolve, bare_ok, Array.getD_eq_getD_getElem?, Array.getElem?_map]
    cases registers[index]? <;> rfl

theorem readJson_terms (text : List Char) :
    readJson f text = bare ((Poly.readJson? f text).elim (.error .json) .ok) := by
  unfold readJson Poly.readJson?
  cases Json.parse text with
  | none => rfl
  | some value =>
    cases value with
    | array items =>
      simp only [Option.bind_eq_bind, Option.bind_some, listedTerms?, Poly.ofJson?]
      cases items.mapM (Term.ofJson? f) with
      | none => rfl
      | some terms => exact build_eq terms
    | _ => rfl

theorem resolve_all_terms (registers : Registers f) (operands : List (Operand f)) :
    operands.mapM (resolve (registers.map Poly.terms)) =
      ((operands.mapM (Session.resolve registers)).map (List.map Poly.terms)).mapError
        .refused := by
  induction operands with
  | nil => rfl
  | cons operand rest ih =>
    rw [List.mapM_cons, List.mapM_cons, ih, resolve_terms]
    cases Session.resolve registers operand with
    | error e => rfl
    | ok p =>
      cases rest.mapM (Session.resolve registers) with
      | error e => rfl
      | ok ps => rfl

/-- Operations on one operand agree if they agree on every polynomial. -/
theorem unary_terms (registers : Registers f) (operand : Operand f)
    {step : List (Term f) → Checked f} {next : Poly f → Except Failure (Poly f)}
    (h : ∀ p : Poly f, step p.terms = bare (next p)) :
    (do step (← resolve (registers.map Poly.terms) operand)) =
      bare (do next (← Session.resolve registers operand)) := by
  rw [resolve_terms]
  exact bare_bind h

theorem binary_terms (registers : Registers f) (left right : Operand f)
    {step : List (Term f) → List (Term f) → Checked f}
    {next : Poly f → Poly f → Except Failure (Poly f)}
    (h : ∀ p q : Poly f, step p.terms q.terms = bare (next p q)) :
    (do step (← resolve (registers.map Poly.terms) left)
          (← resolve (registers.map Poly.terms) right)) =
      bare (do next (← Session.resolve registers left) (← Session.resolve registers right)) := by
  rw [resolve_terms]
  exact bare_bind fun p ↦ unary_terms registers right (h p)

theorem list_terms (registers : Registers f) (operands : List (Operand f))
    {step : List (List (Term f)) → Checked f} {next : List (Poly f) → Except Failure (Poly f)}
    (h : ∀ ps : List (Poly f), step (ps.map Poly.terms) = bare (next ps)) :
    (do step (← operands.mapM (resolve (registers.map Poly.terms)))) =
      bare (do next (← operands.mapM (Session.resolve registers))) := by
  rw [resolve_all_terms]
  cases operands.mapM (Session.resolve registers) with
  | error e => rfl
  | ok ps => exact h ps

/-- Every operation gives the terms of its result on polynomials, or the same refusal. -/
theorem eval_terms (registers : Registers f) (operation : Operation f) :
    eval (registers.map Poly.terms) operation = bare (Session.eval registers operation) := by
  cases operation with
  | zero => rfl
  | one => exact constant_terms 1
  | constant c => exact constant_terms c
  | load p => exact resolve_terms registers p
  | readJson text => exact readJson_terms text
  | add a b => exact binary_terms registers a b add_terms
  | sub a b => exact binary_terms registers a b sub_terms
  | mul a b => exact binary_terms registers a b mul_terms
  | neg p => exact unary_terms registers p neg_terms
  | scale p factor => exact unary_terms registers p (scale_terms · factor)
  | divide p divisor => exact unary_terms registers p (divide_terms · divisor)
  | addConstant p c => exact unary_terms registers p (addConstant_terms · c)
  | subConstant p c => exact unary_terms registers p (addConstant_terms · (-c))
  | constantSub c p => exact unary_terms registers p (constantSub_terms c)
  | mulTerm p t => exact unary_terms registers p (mulTerm_terms · t)
  | pow p exponent => exact unary_terms registers p (pow_terms · exponent.toNat)
  | setCoefficient p power value =>
    exact unary_terms registers p (setCoefficient_terms · power value)
  | sum ps => exact list_terms registers ps sum_terms
  | product ps => exact list_terms registers ps product_terms

/-! ## Whole runs -/

/-- A trace follows the registers of a session on polynomials: it holds the same terms, and each
of its results is that of an operation on polynomials. -/
structure Follows (trace : Trace f) (registers : Registers f) : Prop where
  registers_eq : trace.registers = registers.map Poly.terms
  results_eq : ∀ result ∈ trace.results, ∃ r : Except Failure (Poly f), result = bare r

theorem follows_start (count : Nat) : Follows (start f count) (Session.start f count) where
  registers_eq := by simp [start, Session.start]
  results_eq := by simp [start]

theorem keep_terms (registers : Registers f) (destination : Option Nat)
    (result : Except Failure (Poly f)) :
    keep (registers.map Poly.terms) destination (bare result) =
      (Session.keep registers destination result).map Poly.terms := by
  cases result with
  | error e => rfl
  | ok p =>
    cases destination with
    | none => rfl
    | some index => exact Array.map_setIfInBounds.symm

/-- One step keeps the agreement. -/
theorem follows_runStep {trace : Trace f} {registers : Registers f}
    (h : Follows trace registers) (step : Step f) :
    Follows (runStep trace step) (Session.runStep registers step) where
  registers_eq := by
    rw [runStep, Session.runStep, h.registers_eq, eval_terms]
    exact keep_terms registers step.destination _
  results_eq := by
    intro result hresult
    rcases List.mem_append.mp hresult with hold | hnew
    · exact h.results_eq result hold
    · refine ⟨Session.eval registers step.operation, ?_⟩
      rw [List.mem_singleton.mp hnew, h.registers_eq, eval_terms]

theorem follows_run {trace : Trace f} {registers : Registers f} (h : Follows trace registers)
    (steps : List (Step f)) : Follows (run trace steps) (Session.run registers steps) := by
  induction steps generalizing trace registers with
  | nil => exact h
  | cons step rest ih => exact ih (follows_runStep h step)

theorem length_results_run (trace : Trace f) (steps : List (Step f)) :
    (run trace steps).results.length = trace.results.length + steps.length := by
  induction steps generalizing trace with
  | nil => rfl
  | cons step rest ih =>
    rw [run, List.foldl_cons]
    apply (ih (runStep trace step)).trans
    rw [runStep, List.length_append, List.length_singleton, List.length_cons]
    omega

theorem Follows.canonical {trace : Trace f} {registers : Registers f} (h : Follows trace registers)
    {terms : List (Term f)} (hterms : terms ∈ trace.registers) : Canonical terms := by
  rw [h.registers_eq] at hterms
  obtain ⟨p, -, rfl⟩ := Array.mem_map.mp hterms
  exact p.canonical

theorem bare_ne_notCanonical (result : Except Failure (Poly f)) :
    bare result ≠ .error .notCanonical := by
  cases result <;> simp

theorem canonical_of_bare_eq_ok {result : Except Failure (Poly f)} {terms : List (Term f)}
    (h : bare result = .ok terms) : Canonical terms := by
  cases result with
  | error e => cases h
  | ok p =>
    cases h
    exact p.canonical

/-- After any run every register holds a canonical list; none of its steps has failed an assertion
and each result is canonical; and the registers are those of the session on polynomials. -/
theorem run_canonical (count : Nat) (steps : List (Step f)) :
    (∀ terms ∈ (run (start f count) steps).registers, Canonical terms) ∧
      (run (start f count) steps).results.length = steps.length ∧
      (∀ result ∈ (run (start f count) steps).results,
        result ≠ .error .notCanonical ∧ ∀ terms, result = .ok terms → Canonical terms) ∧
      (run (start f count) steps).registers =
        (Session.run (Session.start f count) steps).map Poly.terms := by
  have hfollows := follows_run (follows_start (f := f) count) steps
  have hlength := length_results_run (start f count) steps
  rw [start, List.length_nil, Nat.zero_add] at hlength
  refine ⟨?_, hlength, ?_, hfollows.registers_eq⟩
  · intro terms hterms
    exact hfollows.canonical hterms
  · intro result hresult
    obtain ⟨r, rfl⟩ := hfollows.results_eq result hresult
    exact ⟨bare_ne_notCanonical r, fun terms hok ↦ canonical_of_bare_eq_ok hok⟩

end CheckedSession

end FloatPolynomial
