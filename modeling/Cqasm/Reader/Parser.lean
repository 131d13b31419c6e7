import Cqasm.Reader.Cursor

/-!
# Parsers

A `Parser` reads something of a named file from where a cursor stands. Either it succeeds with a
value, or it fails with a complaint about the token that the cursor then stands in front of. It
looks at nothing but the tokens: what was reported before, and how much, makes no difference to it.

A parser never turns back, and its type says so: wherever it stops, successful or not, it has passed
the tokens up to there (`Parser.passes`). That is why `Parser.many` needs no bound: each round
passes a token, and none is ever given back.
-/

set_option autoImplicit false

namespace Cqasm

/-- Why reading could not go on. -/
structure Failure where
  /-- What is wrong with the token at hand. -/
  complaint : Complaint
  /-- The braces that were opened and not closed. -/
  openBraces : Nat
  deriving DecidableEq, Repr, Inhabited

/-- How reading ended, and where. -/
inductive Outcome (α : Type) where
  | ok (value : α) (cursor : Cursor)
  | failed (failure : Failure) (cursor : Cursor)

namespace Outcome

variable {α β : Type}

/-- Where reading ended. -/
def cursor : Outcome α → Cursor
  | ok _ c | failed _ c => c

/-- The outcome with another value. -/
def map (f : α → β) : Outcome α → Outcome β
  | ok value c => ok (f value) c
  | failed failure c => failed failure c

@[simp] theorem cursor_map (f : α → β) (outcome : Outcome α) :
    (outcome.map f).cursor = outcome.cursor := by
  cases outcome <;> rfl

end Outcome

/-- A way of reading that never turns back. -/
structure Parser (α : Type) where
  run : (file : String) → Cursor → Outcome α
  passes : ∀ file (c : Cursor), ∃ tokens, c.Passes tokens (run file c).cursor

namespace Parser

variable {α β τ : Type}

/-- No parser goes back. -/
theorem size_le (p : Parser α) (file : String) (c : Cursor) :
    (p.run file c).cursor.size ≤ c.size :=
  let ⟨_, h⟩ := p.passes file c
  h.size_le

/-! ## Sequences -/

/-- Reads nothing. -/
protected def pure (value : α) : Parser α where
  run _ c := .ok value c
  passes _ c := ⟨[], c.passes_nil⟩

/-- Reads one thing after the other. The second starts where the first ended. -/
protected def bind (p : Parser α) (f : α → Parser β) : Parser β where
  run file c :=
    match p.run file c with
    | .ok value c => (f value).run file c
    | .failed failure c => .failed failure c
  passes file c := by
    have h := p.passes file c
    cases hp : p.run file c with
    | ok value c' =>
      rw [hp] at h
      obtain ⟨_, h⟩ := h
      obtain ⟨_, h'⟩ := (f value).passes file c'
      exact ⟨_, h.trans h'⟩
    | failed failure c' =>
      rw [hp] at h
      exact h

instance : Monad Parser where
  pure := Parser.pure
  bind := Parser.bind

theorem run_pure (value : α) (file : String) (c : Cursor) :
    (pure value : Parser α).run file c = .ok value c := rfl

theorem run_bind (p : Parser α) (f : α → Parser β) (file : String) (c : Cursor) :
    (p >>= f).run file c =
      match p.run file c with
      | .ok value c => (f value).run file c
      | .failed failure c => .failed failure c := rfl

/-! ## Single steps -/

/-- Looks at the file name and the cursor and reads nothing. -/
def look (f : String → Cursor → α) : Parser α where
  run file c := .ok (f file c) c
  passes _ c := ⟨[], c.passes_nil⟩

/-- Complains about the token at hand. -/
def fail (complaint : Complaint) : Parser α where
  run _ c := .failed { complaint, openBraces := 0 } c
  passes _ c := ⟨[], c.passes_nil⟩

/-- Complains that the token at hand is not what was expected. -/
def failExpecting (expectation : Expectation) : Parser α :=
  fail (.expected expectation)

/-- The token at hand. -/
def current : Parser Token :=
  look fun _ c => c.current

/-- Whether the token at hand is of a kind. -/
def isAt (kind : Kind) : Parser Bool :=
  look fun _ c => c.kind = kind

/-- The range of a token. -/
def locationOf (token : Token) : Parser Location :=
  look fun file _ => token.location file

/-- The range of the token at hand. -/
def here : Parser Location :=
  look fun file c => c.current.location file

/-- The range from `start` up to the last token passed. -/
def rangeFrom (start : Location) : Parser Location :=
  look fun file c => c.rangeFrom file start

/-- Moves the cursor on. -/
def move (f : Cursor → Cursor) (h : ∀ c : Cursor, ∃ tokens, c.Passes tokens (f c)) :
    Parser Unit where
  run _ c := .ok () (f c)
  passes _ c := h c

/-- Passes the token at hand, whatever it is. -/
def advance : Parser Unit :=
  move Cursor.advance Cursor.exists_passes_advance

/-- Passes newlines and semicolons. -/
def pastSeparators : Parser Unit :=
  move Cursor.pastSeparators fun c => ⟨_, c.passes_pastSeparators⟩

/-- Passes newlines. -/
def pastNewlines : Parser Unit :=
  move Cursor.pastNewlines fun c => ⟨_, c.passes_pastNewlines⟩

/-- Passes a token of the given kind if one is at hand, and tells whether there was one. -/
def accept (kind : Kind) : Parser Bool := do
  if ← isAt kind then
    advance
    return true
  else
    return false

theorem run_accept (kind : Kind) (file : String) (c : Cursor) :
    (accept kind).run file c = if c.kind = kind then .ok true c.advance else .ok false c := by
  simp only [accept, run_bind, isAt, look]
  by_cases h : c.kind = kind
  · simp only [h, decide_true, ↓reduceIte]
    rfl
  · simp only [h, decide_false, Bool.false_eq_true, ↓reduceIte]
    rfl

/-- Passes a token of the given kind, which has to be at hand. A complaint about another one names
`kinds`, which is everything that could have stood here. -/
def expectOneOf (kinds : List Kind) (kind : Kind) : Parser Token := do
  let token ← current
  if ← accept kind then return token
  else failExpecting (.oneOf kinds)

theorem run_expectOneOf (kinds : List Kind) (kind : Kind) (file : String) (c : Cursor) :
    (expectOneOf kinds kind).run file c =
      if c.kind = kind then .ok c.current c.advance
      else .failed { complaint := .expected (.oneOf kinds), openBraces := 0 } c := by
  simp only [expectOneOf, run_bind, current, look, run_accept]
  by_cases h : c.kind = kind
  · simp only [h, ↓reduceIte]
    rfl
  · simp only [h, ↓reduceIte]
    rfl

/-- Passes a token of the given kind, which has to be at hand. -/
def expect (kind : Kind) : Parser Token :=
  expectOneOf [kind] kind

/-- Requires that a statement may end here. -/
def statementEnd : Parser Unit := do
  let token ← current
  if token.kind.endsStatement then return ()
  else failExpecting (.oneOf [.newline, .semicolon])

/-- Reads what stands behind an opening brace: a failure in there leaves that brace open. -/
def insideBraces (p : Parser α) : Parser α where
  run file c :=
    match p.run file c with
    | .ok value c => .ok value c
    | .failed failure c => .failed { failure with openBraces := failure.openBraces + 1 } c
  passes file c := by
    have h := p.passes file c
    cases hp : p.run file c <;> rw [hp] at h <;> exact h

/-! ## Repetition -/

/-- Reads item after item, as long as the token at hand starts one. The token is passed, and the
item goes on behind it. -/
def runMany (starts : Kind → Option τ) (item : τ → Token → Parser α) (file : String)
    (c : Cursor) : Outcome (List α) :=
  match _htokens : c.tokens with
  | [] => .ok [] c
  | token :: _ =>
    match starts token.kind with
    | none => .ok [] c
    | some tag =>
      match _hitem : (item tag token).run file c.advance with
      | .failed failure behind => .failed failure behind
      | .ok value behind => (runMany starts item file behind).map (value :: ·)
termination_by c.size
decreasing_by
  have hle := (item tag token).size_le file c.advance
  have hlt : c.advance.size < c.size := Cursor.size_advance_lt (by simp [_htokens])
  rw [_hitem] at hle
  exact Nat.lt_of_le_of_lt hle hlt

theorem runMany_of_nil {starts : Kind → Option τ} {item : τ → Token → Parser α} {file : String}
    {c : Cursor} (h : c.tokens = []) : runMany starts item file c = .ok [] c := by
  rw [runMany]
  split
  · rfl
  · next htokens => cases h.symm.trans htokens

/-- At a token, `many` reads on if the token starts an item. -/
theorem runMany_of_cons {starts : Kind → Option τ} {item : τ → Token → Parser α} {file : String}
    {c : Cursor} {token : Token} {tokens : List Token} (h : c.tokens = token :: tokens) :
    runMany starts item file c =
      match starts token.kind with
      | none => .ok [] c
      | some tag =>
        match (item tag token).run file c.advance with
        | .failed failure behind => .failed failure behind
        | .ok value behind => (runMany starts item file behind).map (value :: ·) := by
  rw [runMany]
  split
  · next htokens => cases h.symm.trans htokens
  · next htokens =>
    cases h.symm.trans htokens
    split
    · rfl
    · split
      · next hitem => rw [hitem]
      · next hitem => rw [hitem]

/-- Repetition passes what its items pass, one after the other. -/
theorem passes_runMany (starts : Kind → Option τ) (item : τ → Token → Parser α)
    (file : String) (c : Cursor) :
    ∃ tokens, c.Passes tokens (runMany starts item file c).cursor := by
  fun_induction runMany starts item file c with
  | case1 c => exact ⟨[], c.passes_nil⟩
  | case2 c => exact ⟨[], c.passes_nil⟩
  | case3 c token tokens h tag hstart failure c' hitem =>
    obtain ⟨_, hpasses⟩ := (item tag token).passes file c.advance
    rw [hitem] at hpasses
    exact ⟨_, (Cursor.passes_advance h).trans hpasses⟩
  | case4 c token tokens h tag hstart value c' hitem ih =>
    obtain ⟨_, hpasses⟩ := (item tag token).passes file c.advance
    obtain ⟨_, hrest⟩ := ih
    rw [hitem] at hpasses
    rw [Outcome.cursor_map]
    exact ⟨_, ((Cursor.passes_advance h).trans hpasses).trans hrest⟩

/-- Reads item after item, as long as the token at hand starts one; `item` is told which token that
was and what `starts` makes of its kind. -/
def many (starts : Kind → Option τ) (item : τ → Token → Parser α) : Parser (List α) where
  run := runMany starts item
  passes := passes_runMany starts item

/-- Reads an item behind every token of one kind. -/
def manyAfter (kind : Kind) (item : Token → Parser α) : Parser (List α) :=
  many (fun k => if k = kind then some () else none) fun _ token => item token

/-- Reads one item or more, with a token of the given kind between two of them. -/
def separatedBy (kind : Kind) (item : Parser α) : Parser (List α) := do
  let first ← item
  let rest ← manyAfter kind fun _ => item
  return first :: rest

end Parser

end Cqasm
