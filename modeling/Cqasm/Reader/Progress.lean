import Cqasm.Reader.Statement

/-!
# Progress of recovery

Reading a statement and recovering from its failure passes at least one token, wherever it is tried
in front of a token that is no separator (`Parser.size_recover_statement_lt`). A statement that got
past its first token has done so already. One that failed right at its first token opened no brace,
so the token in front of which recovery starts is no place for it to end.
-/

set_option autoImplicit false

namespace Cqasm.Parser

variable {α β : Type} {file : String} {c : Cursor}

theorem size_bind_lt {p : Parser α} {f : α → Parser β}
    (h : (p.run file c).cursor.size < c.size) : ((p >>= f).run file c).cursor.size < c.size := by
  rw [run_bind]
  cases hp : p.run file c with
  | ok value behind =>
    rw [hp] at h
    exact Nat.lt_of_le_of_lt ((f value).size_le file behind) h
  | failed failure behind =>
    rw [hp] at h
    exact h

theorem size_advance_bind_lt {f : Unit → Parser β} (h : c.tokens ≠ []) :
    ((advance >>= f).run file c).cursor.size < c.size :=
  size_bind_lt (Cursor.size_advance_lt h)

theorem size_here_bind_lt {f : Location → Parser β}
    (h : ∀ start, ((f start).run file c).cursor.size < c.size) :
    ((here >>= f).run file c).cursor.size < c.size :=
  h _

theorem size_identifier_lt (h : c.tokens ≠ []) (hkind : c.kind = .identifier) :
    (identifier.run file c).cursor.size < c.size := by
  refine size_bind_lt ?_
  rw [expect, run_expectOneOf, if_pos hkind]
  exact Cursor.size_advance_lt h

theorem size_instruction_lt (h : c.tokens ≠ [])
    (hkind : c.kind = .identifier ∨ c.kind = .conditionPrefix) :
    (instruction.run file c).cursor.size < c.size := by
  refine size_here_bind_lt fun start => ?_
  rcases hkind with hkind | hkind
  · rw [run_bind, run_accept, if_neg (by simp [hkind])]
    exact size_bind_lt (size_identifier_lt h hkind)
  · refine size_bind_lt ?_
    rw [run_accept, if_pos hkind]
    exact Cursor.size_advance_lt h

/-- A statement is either complained about right where it should begin, or its first token is passed
at least. -/
theorem size_statementAt_lt (h : c.tokens ≠ []) :
    statementAt c.kind = failExpecting .statement ∨
      ((statementAt c.kind).run file c).cursor.size < c.size := by
  have bundle_lt (hkind : c.kind = .identifier ∨ c.kind = .conditionPrefix) :
      (bundle.run file c).cursor.size < c.size :=
    size_here_bind_lt fun _ => size_bind_lt (size_bind_lt (size_instruction_lt h hkind))
  cases hkind : c.kind
  case map => exact .inr (size_here_bind_lt fun _ => size_advance_bind_lt h)
  case var => exact .inr (size_here_bind_lt fun _ => size_advance_bind_lt h)
  case dot => exact .inr (size_here_bind_lt fun _ => size_advance_bind_lt h)
  case errorModel => exact .inr (size_here_bind_lt fun _ => size_advance_bind_lt h)
  case leftBrace => exact .inr (size_here_bind_lt fun _ => size_advance_bind_lt h)
  case identifier => exact .inr (bundle_lt (.inl hkind))
  case conditionPrefix => exact .inr (bundle_lt (.inr hkind))
  all_goals exact .inl rfl

/-- Reading a statement and recovering passes at least one token. -/
theorem size_recover_statement_lt {token : Token} {tokens : List Token}
    (h : c.tokens = token :: tokens) (hkind : token.kind.isSeparator = false) :
    ((terminated statement).recover .erroneous file c).cursor.size < c.size := by
  have hne : c.tokens ≠ [] := by simp [h]
  have hstatement : statement.run file c = (statementAt c.kind).run file c := rfl
  -- If nothing of the statement was read, skipping takes its first token, which is no separator.
  rcases size_statementAt_lt hne with hfail | hlt
  · have hrun : (terminated statement).run file c =
        .failed { complaint := .expected .statement, openBraces := 0 } c := by
      rw [terminated, run_bind, hstatement, hfail]
      rfl
    rw [recover, hrun]
    exact Cursor.size_skipStatement_lt h hkind
  · rw [← hstatement] at hlt
    have hlt : ((terminated statement).run file c).cursor.size < c.size := size_bind_lt hlt
    unfold recover
    split
    next value behind hrun =>
      rw [hrun] at hlt
      exact hlt
    next failure stuck hrun =>
      rw [hrun] at hlt
      exact Nat.lt_of_le_of_lt (Cursor.size_skipStatement_le ..) hlt

end Cqasm.Parser
