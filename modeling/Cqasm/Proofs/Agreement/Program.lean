import Cqasm.Proofs.Agreement.Statement
import Cqasm.Proofs.Recognition.Program

/-!
# Agreement on the rest of a program

What a cursor has passed is remembered for the range of what is being read. Every statement passes a
token of its own before its range is asked for, so the first statement behind a cursor does not
depend on what stood in front of it (`recover_statement_forget`), and neither does anything after it
(`readStatements_forget`). Two programs whose tokens are alike from some cursor on therefore go on
alike from there, whatever came before (`Likeness.bodies_of_tokens`).
-/

set_option autoImplicit false

namespace Cqasm

namespace Cursor

variable {c : Cursor} {token : Token} {tokens : List Token}

/-- A token that is no separator takes the place of whatever was passed before. -/
theorem advance_forget (h : c.tokens = token :: tokens) (hkind : token.kind.isSeparator = false)
    (previous : Option Token) : { c with previous }.advance = c.advance := by
  unfold advance passed
  simp [h, hkind]

theorem kind_forget (h : c.tokens = token :: tokens) (previous : Option Token) :
    Cursor.kind { c with previous } = token.kind :=
  congrArg Token.kind (current_of_cons (c := { c with previous }) h)

/-- Skipping looks at what comes, and not at what was passed. -/
theorem skip_forget (opened : Nat) (previous passed : Option Token) (rest : List Token) :
    skipStatement.skip { c with previous } opened passed rest =
      skipStatement.skip c opened passed rest := by
  induction rest generalizing opened passed with
  | nil => rfl
  | cons token rest ih =>
    unfold skipStatement.skip
    rw [ih]

theorem skipStatement_forget (h : c.tokens = token :: tokens)
    (hkind : token.kind.isSeparator = false) (opened : Nat) (previous : Option Token) :
    { c with previous }.skipStatement opened = c.skipStatement opened := by
  unfold skipStatement
  rw [skip_forget]
  dsimp only
  rw [h, skipStatement.skip, skipStatement.skip, hkind, Bool.and_false]
  simp [passed, hkind]

end Cursor

/-! ## Forgetting what was passed -/

namespace Parser

variable {α β : Type} {file : String} {c : Cursor}

/-- What is read from a cursor on does not depend on what the cursor has passed. -/
def Forgets (p : Parser α) (file : String) (c : Cursor) : Prop :=
  ∀ previous, p.run file { c with previous } = p.run file c

/-- What is read first hides what was passed before. -/
theorem forgets_bind {p : Parser α} {f : α → Parser β} (h : p.Forgets file c) :
    (p >>= f).Forgets file c := by
  intro previous
  rw [run_bind, run_bind, h previous]

theorem forgets_advance_bind {f : Unit → Parser β} {token : Token} {tokens : List Token}
    (h : c.tokens = token :: tokens) (hkind : token.kind.isSeparator = false) :
    (advance >>= f).Forgets file c := by
  intro previous
  rw [run_advance_bind, run_advance_bind, Cursor.advance_forget h hkind]

theorem forgets_here_bind {f : Location → Parser β} (h : ∀ start, (f start).Forgets file c) :
    (here >>= f).Forgets file c := by
  intro previous
  rw [run_here_bind, run_here_bind]
  exact h _ previous

theorem forgets_identifier {token : Token} {tokens : List Token} (h : c.tokens = token :: tokens)
    (hkind : token.kind = .identifier) : identifier.Forgets file c := by
  apply forgets_bind
  intro previous
  have hc (previous : Option Token) : Cursor.kind { c with previous } = .identifier :=
    (Cursor.kind_forget h previous).trans hkind
  rw [expect, run_expectOneOf, run_expectOneOf, if_pos (hc previous), if_pos (hc c.previous),
    Cursor.advance_forget h (by rw [hkind]; rfl)]
  rfl

/-- An instruction passes its first token at once. -/
theorem forgets_instruction {token : Token} {tokens : List Token} (h : c.tokens = token :: tokens)
    (hkind : token.kind = .identifier ∨ token.kind = .conditionPrefix) :
    instruction.Forgets file c := by
  apply forgets_here_bind
  intro start previous
  rw [run_accept_bind, run_accept_bind, Cursor.kind_forget h previous,
    Cursor.kind_forget h c.previous]
  rcases hkind with hkind | hkind
  · rw [hkind]
    exact forgets_bind (forgets_identifier h hkind) previous
  · rw [hkind, Cursor.advance_forget h (by rw [hkind]; rfl)]
    rfl

/-- Any statement does so, unless nothing of it is read. -/
theorem forgets_statementAt (file : String) {token : Token} {tokens : List Token}
    (h : c.tokens = token :: tokens) :
    statementAt token.kind = failExpecting .statement ∨
      (statementAt token.kind).Forgets file c := by
  have hkeyword {f : Location → Unit → Parser Statement} (hkind : token.kind.isSeparator = false) :
      (here >>= fun start => advance >>= f start).Forgets file c :=
    forgets_here_bind fun _ => forgets_advance_bind h hkind
  have hbundle (hkind : token.kind = .identifier ∨ token.kind = .conditionPrefix) :
      bundle.Forgets file c :=
    forgets_here_bind fun _ => forgets_bind (forgets_bind (forgets_instruction h hkind))
  cases hkind : token.kind
  case map => exact .inr (hkeyword (by rw [hkind]; rfl))
  case var => exact .inr (hkeyword (by rw [hkind]; rfl))
  case dot => exact .inr (hkeyword (by rw [hkind]; rfl))
  case errorModel => exact .inr (hkeyword (by rw [hkind]; rfl))
  case leftBrace => exact .inr (hkeyword (by rw [hkind]; rfl))
  case identifier => exact .inr (hbundle (.inl hkind))
  case conditionPrefix => exact .inr (hbundle (.inr hkind))
  all_goals exact .inl rfl

/-- So neither the statement nor its placeholder depends on what came before. -/
theorem recover_statement_forget (file : String) {token : Token} {tokens : List Token}
    (h : c.tokens = token :: tokens) (hkind : token.kind.isSeparator = false)
    (previous : Option Token) :
    (terminated statement).recover .erroneous file { c with previous } =
      (terminated statement).recover .erroneous file c := by
  have hstatement (previous : Option Token) :
      statement.run file { c with previous } =
        (statementAt token.kind).run file { c with previous } := by
    rw [statement, run_current_bind, Cursor.current_of_cons (c := { c with previous }) h]
  rcases forgets_statementAt file h with hfail | hforgets
  · -- The failure leaves both cursors where they are; it is the skip that passes the token.
    have hrun (previous : Option Token) : (terminated statement).run file { c with previous } =
        .failed { complaint := .expected .statement, openBraces := 0 } { c with previous } := by
      rw [terminated, run_bind, hstatement, hfail]
      rfl
    have hskip := Cursor.skipStatement_forget h hkind 0 previous
    rw [recover, recover, hrun, show c = { c with previous := c.previous } from rfl, hrun]
    dsimp only
    rw [hskip]
    rfl
  · have hrun : (terminated statement).run file { c with previous } =
        (terminated statement).run file c := by
      rw [terminated, run_bind, run_bind, hstatement, hforgets previous, ← hstatement c.previous]
    rw [recover, recover, hrun]
    rfl

end Parser

open Cqasm.Parser

variable {file : String} {patience patience' : Patience}

/-- By induction along the reading, as only its first statement could tell. -/
theorem readStatements_forget (file : String) (hpatience : patience.Endless) (complaints : Nat)
    (c : Cursor) (previous : Option Token) :
    (readStatements patience file complaints { c with previous }).statements =
        (readStatements patience file complaints c).statements ∧
      (readStatements patience file complaints { c with previous }).errors =
        (readStatements patience file complaints c).errors := by
  cases h : c.pastSeparators.tokens with
  | nil =>
    rw [readStatements_of_nil h, readStatements_of_nil (c := { c with previous }) h]
    exact ⟨rfl, rfl⟩
  | cons token tokens =>
    have hread := recover_statement_forget file h (Cursor.isSeparator_of_pastSeparators h) previous
    rw [readStatements_of_cons h (hpatience _),
      readStatements_of_cons (c := { c with previous }) h (hpatience _)]
    dsimp only
    rw [show Cursor.pastSeparators { c with previous } =
      { c.pastSeparators with previous } from rfl, hread]
    exact ⟨rfl, rfl⟩

namespace Likeness

variable {file' : String} {k : Likeness file file'}

/-- Statements that were read are alike one by one, and so are the complaints. -/
structure Bodies (k : Likeness file file') (body body' : Body) : Prop where
  statements : List.Forall₂ k.Statements body.statements body'.statements
  errors : List.Forall₂ k.Complaints body.errors body'.errors

theorem forall₂_toList {α β : Type} {R : α → β → Prop} {x : Option α} {y : Option β}
    (h : Option.Rel R x y) : List.Forall₂ R x.toList y.toList := by
  cases h with
  | none => exact .nil
  | some h => exact .cons h .nil

variable (k) in
/-- Two patiences are exhausted at the same time, in front of tokens that are alike and after as
many complaints more. -/
def Patiences (patience : Patience) (complaints : Nat) (patience' : Patience)
    (complaints' : Nat) : Prop :=
  ∀ more t u, k.like t u →
    patience.isExhausted (complaints + more) t = patience'.isExhausted (complaints' + more) u

theorem patiences_of_endless (hpatience : patience.Endless) (hpatience' : patience'.Endless)
    (complaints complaints' : Nat) : k.Patiences patience complaints patience' complaints' := by
  intro more t u _
  rw [Patience.isExhausted, Patience.isExhausted, hpatience, hpatience']

theorem Patiences.add {complaints complaints' : Nat}
    (h : k.Patiences patience complaints patience' complaints') (n : Nat) :
    k.Patiences patience (complaints + n) patience' (complaints' + n) := by
  intro more t u htoken
  rw [Nat.add_assoc, Nat.add_assoc]
  exact h (n + more) t u htoken

/-- Both readings go statement by statement, and each step keeps the cursors alike. -/
theorem bodies_readStatements (complaints : Nat) (c : Cursor) :
    ∀ complaints' d, k.Patiences patience complaints patience' complaints' → k.Cursors c d →
      k.Bodies (readStatements patience file complaints c)
          (readStatements patience' file' complaints' d) ∧
        k.Cursors (readStatements patience file complaints c).cursor
          (readStatements patience' file' complaints' d).cursor := by
  fun_induction readStatements patience file complaints c with
  | case1 complaints c h =>
    intro complaints' d _ hcursors
    have hpast := hcursors.pastSeparators
    have hd := hpast.tokens
    rw [h, List.forall₂_nil_left_iff] at hd
    rw [readStatements_of_nil hd]
    exact ⟨⟨.nil, .nil⟩, hpast⟩
  | case2 complaints c token tokens h hexhausted =>
    intro complaints' d hpatiences hcursors
    have hpast := hcursors.pastSeparators
    have hd := hpast.tokens
    rw [h, List.forall₂_cons_left_iff] at hd
    obtain ⟨u, us, htoken, -, hd⟩ := hd
    have hnow : patience.isExhausted complaints token = patience'.isExhausted complaints' u :=
      hpatiences 0 token u htoken
    rw [readStatements_of_exhausted hd (hnow.symm.trans hexhausted)]
    exact ⟨⟨.nil, .nil⟩, hpast⟩
  | case3 complaints c token tokens h hexhausted read rest ih =>
    intro complaints' d hpatiences hcursors
    have hd := hcursors.pastSeparators.tokens
    rw [h, List.forall₂_cons_left_iff] at hd
    obtain ⟨u, us, htoken, -, hd⟩ := hd
    have hread := recoveries (agree_terminated agree_statement) statements_erroneous
      hcursors.pastSeparators
    have herror := forall₂_toList hread.error
    have hnow : patience.isExhausted complaints token = patience'.isExhausted complaints' u :=
      hpatiences 0 token u htoken
    have hlater := hpatiences.add read.error.toList.length
    rw [readStatements_of_cons hd (hnow.symm.trans (by simpa using hexhausted))]
    dsimp only
    rw [← herror.length_eq]
    -- as many complaints on both sides, so the patience left is the same
    obtain ⟨⟨hstatements, herrors⟩, hcursor⟩ := ih _ _ hlater hread.cursor
    exact ⟨⟨.cons hread.value hstatements, List.rel_append herror herrors⟩, hcursor⟩

/-- Where the tokens to come are alike, so are the statements to come, whatever was passed. -/
theorem bodies_of_tokens (hpatience : patience.Endless) (hpatience' : patience'.Endless)
    (complaints complaints' : Nat) {c d : Cursor}
    (htokens : List.Forall₂ k.like c.tokens d.tokens) (hlast : k.like c.last d.last) :
    k.Bodies (readStatements patience file complaints c)
      (readStatements patience' file' complaints' d) := by
  -- What was passed may differ in the two texts, and is forgotten on both sides first.
  obtain ⟨hbodies, -⟩ := bodies_readStatements (k := k) complaints { c with previous := none }
    complaints' { d with previous := none }
    (patiences_of_endless hpatience hpatience' complaints complaints') ⟨.none, htokens, hlast⟩
  obtain ⟨hstatements, herrors⟩ := readStatements_forget file hpatience complaints c none
  obtain ⟨hstatements', herrors'⟩ := readStatements_forget file' hpatience' complaints' d none
  constructor
  · rw [← hstatements, ← hstatements']
    exact hbodies.statements
  · rw [← herrors, ← herrors']
    exact hbodies.errors

end Likeness

end Cqasm
