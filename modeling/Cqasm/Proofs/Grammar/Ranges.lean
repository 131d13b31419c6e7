import Cqasm.Proofs.Grammar.Program
import Cqasm.Proofs.Recognition.Step

/-!
# Where parts of a tree start

Whatever a row of tokens stands for starts where its first token does (`leads_expression`,
`location_of_isStatement`). A range only ever grows at its end, and every token stands on some line.
-/

set_option autoImplicit false

namespace Cqasm

/-- The place of a token starts where the token does. -/
theorem Token.first_location (file : String) (token : Token) :
    (token.location file).first = token.firstPoint := by
  unfold Token.location
  split <;> rfl

/-- A range grows at its end, unless nothing is known of its start. -/
theorem Location.first_through {start stop : Location} (h : start.first.line ≠ 0) :
    (start.through stop).first = start.first := by
  unfold through grow
  split
  · rfl
  · rfl

namespace Grammar

variable {file : String}

/-- The range of a row starts where its first token does, unless this is a separator. -/
theorem first_rangeOf {token : Token} {tokens : List Token}
    (hkind : token.kind.isSeparator = false) (hline : (token.location file).first.line ≠ 0) :
    (rangeOf file (token :: tokens)).first = token.firstPoint := by
  obtain ⟨last, hlast⟩ := Option.isSome_iff_exists.1 (lastSolid?_isSome tokens hkind)
  rw [rangeOf, hlast]
  show ((token.location file).through (last.location file)).first = _
  rw [Location.first_through hline, Token.first_location]

/-- The range of a statement is that of its row, separators at the ends left out. -/
theorem location_of_isStatement {ts : List Token} {s : Statement} (h : IsStatement file ts s) :
    s.location = rangeOf file ts := by
  cases h <;> rfl

/-! ## Expressions -/

/-- Every expression of a phrase starts where its row does. -/
def Leads (file : String) (phrase : Phrase Expr) : Prop :=
  ∀ ⦃ts e⦄, phrase ts e → ∃ token us, ts = token :: us ∧
    ((token.location file).first.line ≠ 0 → e.location.first = token.firstPoint)

variable {sub : Phrase Expr}

/-- An expression that goes on with something else still starts where it did. -/
theorem Leads.through {ts : List Token} {e : Expr} {stop : Location} (rest : List Token)
    (h : ∃ token us, ts = token :: us ∧
      ((token.location file).first.line ≠ 0 → e.location.first = token.firstPoint)) :
    ∃ token us, ts ++ rest = token :: us ∧ ((token.location file).first.line ≠ 0 →
      (e.location.through stop).first = token.firstPoint) := by
  obtain ⟨token, us, rfl, hfirst⟩ := h
  refine ⟨token, us ++ rest, rfl, fun hline => ?_⟩
  have hstart : e.location.first.line ≠ 0 := by
    rw [hfirst hline, ← Token.first_location file]
    exact hline
  rw [Location.first_through hstart, hfirst hline]

/-- The range of an expression starts at its first token. Parentheses are the first token of what is
in them. -/
theorem leads_primary : Leads file (IsPrimary file sub) := by
  intro ts e h
  cases h with
  | integer | float | string | json =>
    exact ⟨_, [], rfl, fun _ => Token.first_location ..⟩
  | name hname =>
    obtain ⟨hkind⟩ := hname
    exact ⟨_, [], rfl, fun _ => Token.first_location ..⟩
  | call hname =>
    obtain ⟨hkind⟩ := hname
    exact ⟨_, _, rfl, fun hline => first_rangeOf (by rw [hkind]; rfl) hline⟩
  | parenthesised hopen =>
    refine ⟨_, _, rfl, fun hline => ?_⟩
    rw [Expr.location_withLocation]
    exact first_rangeOf (by rw [hopen]; rfl) hline
  | matrix hopen => exact ⟨_, _, rfl, fun hline => first_rangeOf (by rw [hopen]; rfl) hline⟩

theorem leads_postfix : Leads file (IsPostfix file sub) := by
  intro ts e h
  induction h with
  | primary he => exact leads_primary he
  | index _ _ _ _ ih => exact Leads.through _ ih

/-- At the outermost operator in front, which is the first. -/
theorem leads_unary : Leads file (IsUnary file sub) := by
  intro ts e h
  cases h with
  | indexed he => exact leads_postfix he
  | operator =>
    refine ⟨_, _, rfl, fun hline => ?_⟩
    show (Location.through _ _).first = _
    rw [Location.first_through hline, Token.first_location]

theorem leads_power : Leads file (IsPower file sub) := by
  intro ts e h
  cases h with
  | operand he => exact leads_unary he
  | operator hlhs => exact Leads.through _ (leads_unary hlhs)

/-- At the first token of the first operand. -/
theorem leads_chain {operators : List (Kind × BinaryOperator)} (hsub : Leads file sub) :
    Leads file (IsChain operators sub) := by
  intro ts e h
  induction h with
  | operand he => exact hsub he
  | operator _ _ _ ih => exact Leads.through _ ih

/-- The range of an expression starts where its row does, at any depth. -/
theorem leads_expression (levels : Nat) : Leads file (IsExpression file levels) := by
  cases levels with
  | zero => exact fun _ _ h => h.elim
  | succ levels =>
    unfold IsExpression IsLayered
    induction leftLevels with
    | nil => exact leads_power
    | cons _ _ ih => exact leads_chain ih

end Grammar

end Cqasm
