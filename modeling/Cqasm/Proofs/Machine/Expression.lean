import Cqasm.Proofs.Machine.Follows

/-!
# Expressions, followed

Most of the grammar of expressions has the shape of its parser, and the rules of `Follows` apply as
they stand. Where the two differ is in their loops: the rows of a matrix grow element by element
here and are put together at the end there (`run_matrixRest`); powers call themselves here and are
folded up there (`follows_power`).

How deep an expression is nested is an argument of the parser. Here it is counted, and however a
call is left, the count is then what it was before (`followsAt_call`).
-/

set_option autoImplicit false

namespace Cqasm.Machine

open Machine.Action Reader

variable {S α β : Type} {k : Setting S} {c : Cursor} {sub : Action (Reader S) Expr}
  {sub' : Parser Expr}

/-! ## What stands by itself -/

/-- A name is a token that must be there. -/
theorem follows_identifier : Follows k (identifier k.host) Parser.identifier :=
  fun _ => (followsAt_expect rfl).bind fun _ _ _ => (FollowsAt.pure _).congr rfl

theorem follows_expressionsBefore (closing : Kind) (hsub : Follows k sub sub') :
    Follows k (expressionsBefore k.host closing sub) (Parser.expressionsBefore closing sub') := by
  refine fun c => (followsAt_isAt closing).bind fun isOver behind _ => ?_
  cases isOver with
  | true => exact .pure []
  | false => exact follows_separatedBy rfl hsub behind

/-- A parenthesis behind a name makes it a call. -/
theorem follows_identifierOrCall (hsub : Follows k sub sub') :
    Follows k (identifierOrCall k.host sub) (Parser.identifierOrCall sub') := by
  refine fun c => followsAt_here.bind fun start _ _ => (follows_identifier _).bind fun name _ _ =>
    (followsAt_accept rfl).bind fun isCall _ _ => ?_
  cases isCall with
  | false => exact .pure _
  | true =>
    exact (follows_expressionsBefore _ hsub _).bind fun _ _ _ =>
      (followsAt_expectOneOf _ rfl).bind fun _ _ _ => (followsAt_rangeFrom _).bind fun _ _ _ =>
        .pure _

/-- The expression inside is one call deeper, which the rule for `sub` knows about. -/
theorem followsAt_parenthesised (hsub : Follows k sub sub') (h : isPlain c.kind) :
    FollowsAt k c (parenthesised k.host sub) (Parser.parenthesised sub') := by
  refine followsAt_here.bind fun start behind hrun => ?_
  cases hrun
  exact .advance h ((hsub _).bind fun _ _ _ => (followsAt_expect rfl).bind fun _ _ _ =>
    (followsAt_rangeFrom _).bind fun _ _ _ => .pure _)

/-- A number that is too large is complained of before it is passed. -/
theorem followsAt_integerLiteral (h : isOperand c.kind) (hdepth : 0 < k.depth) :
    FollowsAt k c (integerLiteral k.host) Parser.integerLiteral := by
  refine .current ?_
  dsimp only
  split
  · exact followsAt_complain _
  · exact ((followsAt_operand h hdepth).bind fun _ _ _ => .pure _).congr rfl

/-- Literals are operands, so they are passed inside of an expression only. -/
theorem followsAt_literal (make : List Char → Location → Expr) (h : isOperand c.kind)
    (hdepth : 0 < k.depth) : FollowsAt k c (literal k.host make) (Parser.literal make) :=
  ((followsAt_operand h hdepth).bind fun _ _ _ => .pure _).congr rfl

/-! ## Matrices -/

/-- What is left of a matrix at an element, behind rows that are over and the elements in front of
it in its row. -/
def matrixRest (sub' : Parser Expr) (before : List (List Expr) × List Expr) :
    Parser (List (List Expr)) := do
  let first ← sub'
  Parser.pastNewlines
  let rest ← Parser.many Parser.elementSeparator? fun opensRow _ => do
    return (opensRow, ← Parser.matrixElement sub')
  let (row, rows) := Expr.rowsFrom first rest
  return before.1 ++ (before.2 ++ row) :: rows

/-- What one turn of the loop over the elements reads. -/
def matrixPart (sub' : Parser Expr) (before : List (List Expr) × List Expr) :
    Parser (List (List Expr) × List Expr ⊕ List (List Expr)) := do
  let element ← sub'
  let row := before.2 ++ [element]
  Parser.pastNewlines
  if ← Parser.accept .comma then
    Parser.pastNewlines
    return .inl (before.1, row)
  else if ← Parser.accept .semicolon then
    Parser.pastNewlines
    return .inl (before.1 ++ [row], [])
  else return .inr (before.1 ++ [row])

/-- One by one here, all at once there. -/
theorem follows_skipNewlines : Follows k (skipNewlines k.host) Parser.pastNewlines := by
  refine follows_skipping (fun kind tag h => ?_) fun c => ?_
  · unfold only at h
    split at h
    · next heq => rw [heq]; rfl
    · cases h
  · have hsome : (fun token : Token => (only .newline token.kind).isSome) =
        fun token => decide (token.kind = .newline) := by
      funext token
      unfold only
      split <;> simp_all
    rw [hsome]
    rfl

/-- A turn branches by what separates the element from the next one. -/
theorem follows_matrixTurn (hsub : Follows k sub sub') (before : List (List Expr) × List Expr) :
    Follows k (matrixTurn k.host sub before) (matrixPart sub' before) := by
  refine fun c => (hsub c).bind fun element _ _ => (follows_skipNewlines _).bind fun _ _ _ =>
    (followsAt_accept rfl).bind fun isComma _ _ => ?_
  cases isComma with
  | true => exact (follows_skipNewlines _).bind fun _ _ _ => .pure _
  | false =>
    refine (followsAt_accept rfl).bind fun isSemicolon _ _ => ?_
    cases isSemicolon with
    | true => exact (follows_skipNewlines _).bind fun _ _ _ => .pure _
    | false => exact .pure _

/-- A token at hand is passed by a step, and fewer are left. -/
theorem size_advance_lt_of_kind {kind : Kind} (hended : c.Ended) (hkind : c.kind = kind)
    (hne : kind ≠ .eof) : c.advance.size < c.size :=
  Cursor.size_advance_lt fun htokens =>
    hne (hkind.symm.trans (hended.kind_eq_eof_iff.2 htokens))

/-- In front of any token but the end there is one to be passed. -/
theorem exists_tokens_of_kind {kind : Kind} (hended : c.Ended) (hkind : c.kind = kind)
    (hne : kind ≠ .eof) : ∃ token tokens, c.tokens = token :: tokens ∧ token.kind = kind := by
  have htokens : c.tokens ≠ [] := fun htokens =>
    hne (hkind.symm.trans (hended.kind_eq_eof_iff.2 htokens))
  obtain ⟨token, tokens, htokens⟩ := List.exists_cons_of_ne_nil htokens
  exact ⟨token, tokens, htokens, by rw [← hkind, Cursor.kind, Cursor.current_of_cons htokens]⟩

theorem run_pastNewlines (file : String) (c : Cursor) :
    Parser.pastNewlines.run file c = .ok () c.pastNewlines := rfl

section

variable {before : List (List Expr) × List Expr} {file : String}

/-- What separates an element from the one behind it decides where that one goes. -/
theorem run_matrixPart {element : Expr} {behind : Cursor}
    (h : sub'.run file c = .ok element behind) :
    (matrixPart sub' before).run file c =
      match Parser.elementSeparator? behind.pastNewlines.kind with
      | none => .ok (.inr (before.1 ++ [before.2 ++ [element]])) behind.pastNewlines
      | some true =>
        .ok (.inl (before.1 ++ [before.2 ++ [element]], []))
          behind.pastNewlines.advance.pastNewlines
      | some false =>
        .ok (.inl (before.1, before.2 ++ [element])) behind.pastNewlines.advance.pastNewlines := by
  rw [matrixPart, Parser.run_bind_of_ok _ h, Parser.run_pastNewlines_bind, Parser.run_accept_bind]
  by_cases hcomma : behind.pastNewlines.kind = .comma
  · rw [if_pos hcomma, hcomma]
    rfl
  rw [if_neg hcomma, if_neg (by decide), Parser.run_accept_bind]
  by_cases hsemicolon : behind.pastNewlines.kind = .semicolon
  · rw [if_pos hsemicolon, hsemicolon]
    rfl
  have hnone : Parser.elementSeparator? behind.pastNewlines.kind = none := by
    revert hcomma hsemicolon
    cases behind.pastNewlines.kind <;> decide
  rw [if_neg hsemicolon, hnone]
  rfl

/-- An element that fails fails the turn. -/
theorem run_matrixPart_of_failed {failure : Failure} {stuck : Cursor}
    (h : sub'.run file c = .failed failure stuck) :
    (matrixPart sub' before).run file c = .failed failure stuck := by
  rw [matrixPart, Parser.run_bind, h]

/-- Behind a turn there is what the next turns read. -/
theorem run_matrixRest (hended : c.Ended) :
    (matrixRest sub' before).run file c =
      (matrixPart sub' before >>= onward (matrixRest sub')).run file c := by
  rw [matrixRest, Parser.run_bind, Parser.run_bind]
  cases hfirst : sub'.run file c with
  | failed failure stuck => rw [run_matrixPart_of_failed hfirst]
  | ok first behind =>
    have hpast : behind.pastNewlines.Ended := by
      obtain ⟨_, hpasses⟩ := sub'.passes file c
      rw [hfirst] at hpasses
      exact behind.passes_pastNewlines.ended (hpasses.ended hended)
    rw [run_matrixPart hfirst]
    simp only [Parser.run_bind, run_pastNewlines, run_many]
    -- Either the matrix is over, or a comma or semicolon leads to one more element.
    cases hseparator : Parser.elementSeparator? behind.pastNewlines.kind with
    | none =>
      rw [Parser.runMany_of_none hseparator]
      rfl
    | some opensRow =>
      obtain ⟨token, tokens, htokens, hkind⟩ := exists_tokens_of_kind hpast rfl fun heof => by
        rw [heof] at hseparator
        cases hseparator
      rw [Parser.runMany_of_cons htokens, hkind, hseparator]
      cases opensRow
      all_goals
        simp only [Parser.matrixElement, Parser.run_bind, run_pastNewlines, onward, matrixRest,
          run_many]
        cases sub'.run file behind.pastNewlines.advance.pastNewlines with
        | failed failure stuck => rfl
        | ok next behind =>
          simp only [Parser.run_pure]
          cases Parser.runMany Parser.elementSeparator? _ file behind.pastNewlines with
          | failed failure stuck => rfl
          | ok rest behind => simp [Outcome.map, Expr.rowsFrom]

/-- Another turn is asked for behind a comma or a semicolon only. -/
theorem size_matrixPart_lt {next : List (List Expr) × List Expr} {behind : Cursor}
    (hended : c.Ended) (hrun : (matrixPart sub' before).run file c = .ok (.inl next) behind) :
    behind.size < c.size := by
  cases hfirst : sub'.run file c with
  | failed failure stuck =>
    rw [run_matrixPart_of_failed hfirst] at hrun
    cases hrun
  | ok first middle =>
    obtain ⟨_, hpasses⟩ := sub'.passes file c
    rw [hfirst] at hpasses
    have hpast := hpasses.trans middle.passes_pastNewlines
    have hle := middle.pastNewlines.advance.passes_pastNewlines.size_le
    rw [run_matrixPart hfirst] at hrun
    cases hseparator : Parser.elementSeparator? middle.pastNewlines.kind with
    | none =>
      rw [hseparator] at hrun
      cases hrun
    | some opensRow =>
      have hlt := size_advance_lt_of_kind (hpast.ended hended) rfl fun heof => by
        rw [heof] at hseparator
        cases hseparator
      have hbehind : behind = middle.pastNewlines.advance.pastNewlines := by
        rw [hseparator] at hrun
        cases opensRow <;> cases hrun <;> rfl
      rw [hbehind]
      exact Nat.lt_of_le_of_lt hle (Nat.lt_of_lt_of_le hlt hpast.size_le)

end

/-- Its loop grows the rows as it goes, from no rows and an empty one. -/
theorem followsAt_matrix (hsub : Follows k sub sub') (h : isPlain c.kind) :
    FollowsAt k c (matrix k.host sub) (Parser.matrix sub') := by
  have hrows := follows_repeating (matrixPart sub') (matrixRest sub') (follows_matrixTurn hsub)
    (fun before c hended => run_matrixRest hended)
    (fun before c next behind hended hrun => size_matrixPart_lt hended hrun)
  refine followsAt_here.bind fun start behind hrun => ?_
  cases hrun
  refine .advance h (((follows_skipNewlines _).bind fun _ _ _ => (hrows _ _).bind fun rows _ _ =>
    (followsAt_expectOneOf _ rfl).bind fun _ _ _ => (followsAt_rangeFrom _).bind fun _ _ _ =>
      FollowsAt.pure _).congr ?_)
  simp only [Parser.matrixElement, matrixRest, Parser.run_bind, run_pastNewlines, run_many]
  cases sub'.run k.host.file c.advance.pastNewlines with
  | failed failure stuck => rfl
  | ok first behind =>
    simp only [Parser.run_pure]
    cases Parser.runMany Parser.elementSeparator? _ k.host.file behind.pastNewlines <;> rfl

/-- The kind of the token at hand picks the rule. -/
theorem followsAt_primary (hsub : Follows k sub sub') (hdepth : 0 < k.depth) :
    FollowsAt k c (primary k.host sub) (Parser.primary sub') := by
  refine .current ?_
  cases h : c.current.kind
  case integer => exact followsAt_integerLiteral (congrArg isOperand h) hdepth
  case float => exact followsAt_literal _ (congrArg isOperand h) hdepth
  case string => exact followsAt_literal _ (congrArg isOperand h) hdepth
  case json => exact followsAt_literal _ (congrArg isOperand h) hdepth
  case identifier => exact follows_identifierOrCall hsub c
  case leftParen => exact followsAt_parenthesised hsub (isPlain_of_kind h rfl)
  case leftBracket => exact followsAt_matrix hsub (isPlain_of_kind h rfl)
  all_goals exact followsAt_failExpecting _

/-! ## Layers -/

theorem follows_indexEntry (hsub : Follows k sub sub') :
    Follows k (indexEntry k.host sub) (Parser.indexEntry sub') := by
  refine fun c => (hsub c).bind fun first _ _ => (followsAt_accept rfl).bind fun isRange _ _ => ?_
  cases isRange with
  | true => exact (hsub _).bind fun _ _ _ => .pure _
  | false => exact .pure _

/-- The last token passed behind a closing token is that token. -/
theorem rangeFrom_of_expectOneOf {kinds : List Kind} {kind : Kind} {file : String} {close : Token}
    {behind : Cursor} (hended : c.Ended) (hkind : isPlain kind) (hsolid : kind.isSeparator = false)
    (hrun : (Parser.expectOneOf kinds kind).run file c = .ok close behind) (start : Location) :
    behind.rangeFrom file start = start.through (close.location file) := by
  rw [Parser.run_expectOneOf] at hrun
  split at hrun
  · next hclose =>
    cases hrun
    have hne : kind ≠ .eof := by
      rintro rfl
      cases hkind
    have hprevious := (Cursor.passes_current hended hclose hne).previous_eq
    have hpassed : Cursor.passed c.previous c.current = some c.current := by
      have : c.current.kind = kind := hclose
      rw [Cursor.passed, this, hsolid]
      rfl
    rw [List.foldl_cons, hpassed, List.foldl_nil] at hprevious
    rw [Cursor.rangeFrom, hprevious]
  · cases hrun

/-- An index is put around what has been read so far, once per turn. -/
theorem follows_indexed (hsub : Follows k sub sub') (hdepth : 0 < k.depth) :
    Follows k (indexed k.host sub) (Parser.indexed sub') := by
  refine fun c => (followsAt_primary hsub hdepth).bind fun base behind _ => ?_
  refine follows_whileAt (fun _ _ => Parser.indexTail sub')
    (fun e tail => .index e tail.1 (e.location.through tail.2))
    (@isPlain_of_only .leftBracket rfl) (fun e _ _ c => ?_) base behind
  -- The machine takes the range from the last token passed, the parser from the closing bracket.
  refine ((follows_separatedBy rfl (follows_indexEntry hsub) c).bind
    (g := fun entries => do
      let close ← Parser.expectOneOf [.comma, .rightBracket] .rightBracket
      return .index e entries (e.location.through (close.location k.host.file)))
    fun entries behind _ => ?_).congr ?_
  · refine .of_ended fun hended => (followsAt_expectOneOf _ rfl).bind fun close behind' hrun => ?_
    refine ((followsAt_rangeFrom e.location).bind fun _ _ _ => FollowsAt.pure _).congr ?_
    rw [← rangeFrom_of_expectOneOf hended rfl rfl hrun]
    rfl
  · simp only [Parser.indexTail, Parser.run_bind]
    cases (Parser.separatedBy .comma (Parser.indexEntry sub')).run k.host.file c with
    | failed failure stuck => rfl
    | ok entries behind =>
      simp only
      cases (Parser.expectOneOf [.comma, .rightBracket] .rightBracket).run k.host.file behind
      all_goals rfl

/-- Operators are collected first and applied when the operand is there. -/
theorem follows_unary (hsub : Follows k sub sub') (hdepth : 0 < k.depth) :
    Follows k (unary k.host sub) (Parser.unary sub') := by
  refine fun c => (follows_collecting_nil
    (fun operator token => do return (operator, ← Parser.locationOf token))
    (isPlain_of_starts (by decide)) (fun _ _ _ => (FollowsAt.pure _).congr rfl) c).bind
      fun operators _ _ => (follows_indexed hsub hdepth _).bind fun _ _ _ => .pure _

/-! ## Binary operators -/

/-- Operands with operators between them that group to the right. -/
def powers (operand : Parser Expr) : Parser Expr := do
  let first ← operand
  let rest ← Parser.rightSides powerOperator? operand
  return first.joinRight rest

/-- Without an operator nothing comes behind the operand. -/
theorem run_rightSides_of_none {operand : Parser Expr} {operator? : Kind → Option BinaryOperator}
    {file : String} (h : operator? c.kind = none) :
    (Parser.rightSides operator? operand).run file c = .ok [] c :=
  Parser.runMany_of_none h

/-- Behind an operator there are powers again. -/
theorem run_rightSides_of_some {operand : Parser Expr} {operator : BinaryOperator} {file : String}
    (hended : c.Ended) (h : powerOperator? c.kind = some operator) (first : Expr) :
    (do
      let rest ← Parser.rightSides powerOperator? operand
      return first.joinRight rest : Parser Expr).run file c =
      ((powers operand).run file c.advance).map (first.joined operator) := by
  have htokens : c.tokens ≠ [] := fun htokens => by
    rw [hended.kind_eq_eof_iff.2 htokens] at h
    cases h
  obtain ⟨token, tokens, htokens⟩ := List.exists_cons_of_ne_nil htokens
  have hop : powerOperator? token.kind = some operator := Cursor.current_of_cons htokens ▸ h
  simp only [powers, Parser.rightSides, Parser.run_bind, run_many, Parser.runMany_of_cons htokens,
    hop, Parser.run_pure]
  cases hnext : operand.run file c.advance with
  | failed failure stuck => rfl
  | ok next behind =>
    simp only
    cases Parser.runMany powerOperator? _ file behind <;> rfl

/-- By induction on the tokens left, as the grammar calls itself behind each operator. -/
theorem follows_power {operand : Action (Reader S) Expr} {operand' : Parser Expr}
    (hoperand : Follows k operand operand') :
    Follows k (operand.power k.host) (powers operand') := by
  intro c
  induction hsize : c.size using Nat.strongRecOn generalizing c with
  | ind size ih =>
    rw [Action.power]
    refine (hoperand c).bind fun first behind hfirst => .of_ended fun hended => .look ?_
    cases hop : powerOperator? behind.current.kind with
    | none =>
      refine (FollowsAt.pure first).congr ?_
      rw [Parser.run_bind, run_rightSides_of_none hop]
      rfl
    | some operator =>
      have hplain : isPlain behind.kind := isPlain_of_starts (by decide) _ _ hop
      have hlt : behind.advance.size < size := by
        have hne : behind.kind ≠ .eof := fun h => by
          rw [h] at hplain
          cases hplain
        have hle := operand'.size_le k.host.file c
        rw [hfirst, hsize] at hle
        exact Nat.lt_of_lt_of_le (size_advance_lt_of_kind hended rfl hne) hle
      refine (FollowsAt.advance hplain ((ih _ hlt _ rfl).bind fun _ _ _ => .pure _)).congr ?_
      rw [run_rightSides_of_some hended hop]
      simp only [Parser.run_bind, Parser.advance, Parser.move]
      cases (powers operand').run k.host.file behind.advance <;> rfl

/-- Each turn joins one more operand to what there is. -/
theorem follows_leftAssociative {operator? : Kind → Option BinaryOperator}
    {operand : Action (Reader S) Expr} {operand' : Parser Expr}
    (hplain : ∀ kind tag, operator? kind = some tag → isPlain kind)
    (hoperand : Follows k operand operand') :
    Follows k (leftAssociative k.host operator? operand)
      (Parser.leftAssociative operator? operand') := by
  refine fun c => (hoperand c).bind fun first behind _ => ?_
  refine follows_whileAt (fun operator _ => do return (operator, ← operand'))
    (fun lhs right => lhs.joined right.1 right.2) hplain (fun lhs operator _ c => ?_) first behind
  refine ((hoperand c).bind fun rhs _ _ => FollowsAt.pure _).congr ?_
  simp only [Parser.run_bind]
  cases operand'.run k.host.file c <;> rfl

/-- By induction on the levels looser than powers. -/
theorem follows_layers (hsub : Follows k sub sub') (hdepth : 0 < k.depth) :
    Follows k (layers k.host sub) (Parser.layers sub') := by
  have hplain : ∀ operator? ∈ leftAssociativeLevels, ∀ kind ∈ otherKinds,
      operator? kind = none := by
    decide
  unfold layers Parser.layers
  generalize leftAssociativeLevels = levels at hplain
  induction levels with
  | nil => exact follows_power (follows_unary hsub hdepth)
  | cons operator? levels ih =>
    obtain ⟨hoperator, hlevels⟩ := List.forall_mem_cons.1 hplain
    exact follows_leftAssociative (isPlain_of_starts hoperator) (ih hlevels)

/-! ## Depth -/

/-- How a call ends, with the count of calls put back. -/
theorem ends_within {m : Action (Reader S) α} {r : Reader S} {post : α → Reader S → Prop}
    {raised : Interrupt → Reader S → Prop} :
    Ends (within m) r post raised ↔
      Ends m { r with activations := r.activations + 1 }
        (fun value t => post value { t with activations := r.activations })
        fun interrupt t => raised interrupt { t with activations := r.activations } := by
  unfold Ends within
  rcases m { r with activations := r.activations + 1 } with - | ⟨- | value, t⟩ <;> exact Iff.rfl

/-- What is ensured is done however the action ends. -/
theorem ends_ensuring {m : Action (Reader S) α} {change : Reader S → Reader S} {r : Reader S}
    {post : α → Reader S → Prop} {raised : Interrupt → Reader S → Prop} :
    Ends (ensuring m change) r post raised ↔
      Ends m r (fun value t => post value (change t)) fun interrupt t =>
        raised interrupt (change t) := by
  unfold Ends ensuring
  rcases m r with - | ⟨- | value, t⟩ <;> exact Iff.rfl

/-- The setting of a call for an expression. -/
def Setting.deeper (k : Setting S) : Setting S :=
  { k with depth := k.depth + 1 }

theorem Setting.depth_deeper (k : Setting S) : k.deeper.depth = k.depth + 1 := rfl

/-- The state inside a call for an expression. -/
def Reader.entered (r : Reader S) : Reader S :=
  { r with activations := r.activations + 1, expressionDepth := r.expressionDepth + 1 }

/-- The state behind a call for an expression. -/
def Reader.left (t : Reader S) (activations : Nat) : Reader S :=
  { t with activations, expressionDepth := t.expressionDepth - 1 }

/-- Inside of a call both counts are one higher, which the check in front of it leaves room for. -/
theorem Reader.Balanced.entered {r : Reader S} {depth : Nat} {phase : Phase}
    (h : r.Balanced depth phase) (hdepth : depth < maxNesting) :
    r.entered.Balanced (depth + 1) phase where
  activations_eq := congrArg (· + 1) h.activations_eq
  expressionDepth_eq := by
    rw [Reader.entered, h.expressionDepth_eq]
    rfl
  depth_le := hdepth
  phase_eq := h.phase_eq
  braceDepth_eq := h.braceDepth_eq
  opened_le := h.opened_le
  allFair := h.allFair

/-- Behind the call both are what they were. -/
theorem Reader.Balanced.left {t : Reader S} {depth : Nat} {phase : Phase}
    (h : t.Balanced (depth + 1) phase) : (t.left depth).Balanced depth phase where
  activations_eq := rfl
  expressionDepth_eq := by
    have := h.expressionDepth_eq
    simp only [Reader.left]
    omega
  depth_le := Nat.le_of_succ_le h.depth_le
  phase_eq := h.phase_eq
  braceDepth_eq := h.braceDepth_eq
  opened_le := h.opened_le
  allFair := h.allFair

/-- Also when it is broken off. -/
theorem Reader.Refused.left {host : Host S} {t : Reader S} {depth : Nat}
    (h : t.Refused host (depth + 1)) : (t.left depth).Refused host depth where
  isRefused := h.isRefused
  activations_eq := rfl
  expressionDepth_eq := by
    have := h.expressionDepth_eq
    simp only [Reader.left]
    omega
  allFair := h.allFair

theorem Reader.At.left {t : Reader S} {errors : List Diagnostic} (h : At k.deeper t c errors)
    (activations : Nat) : At k (t.left activations) c errors :=
  At.of_eq (t := t.left activations) (h.of_setting rfl rfl) rfl rfl rfl rfl rfl

/-- However a call for an expression is left, the counters are then what they were before. -/
theorem followsAt_call {m : Action (Reader S) α} {p : Parser α} (h : FollowsAt k.deeper c m p)
    (hdepth : k.depth < maxNesting) :
    FollowsAt k c
      (within do
        modify fun r => { r with expressionDepth := r.expressionDepth + 1 }
        ensuring m fun r => { r with expressionDepth := r.expressionDepth - 1 }) p := by
  intro r errors hat hbalanced
  rw [ends_within, ends_bind, ends_modify, ends_ensuring, hbalanced.activations_eq]
  have hentered : At k.deeper r.entered c errors :=
    At.of_eq (t := r.entered) (hat.of_setting rfl rfl) rfl rfl rfl rfl rfl
  have hbody := h hentered (hbalanced.entered hdepth)
  rw [Reader.entered, hbalanced.activations_eq] at hbody
  refine hbody.mono (fun value t ⟨behind, hrun, hat', hbalanced'⟩ => ?_)
    fun interrupt t hleaves => ?_
  · exact ⟨behind, hrun, hat'.left _, hbalanced'.left⟩
  · cases hleaves with
    | misread hfailed hat' hbalanced' => exact .misread hfailed (hat'.left _) hbalanced'.left
    | refused hrefused => exact .refused hrefused.left

/-- Expressions are read down to the depth that is left, if there is room for so many calls. -/
theorem follows_expression {frames : Nat} (k : Setting S) (hframes : maxNesting < frames + k.depth)
    (hdepth : k.depth ≤ maxNesting) :
    Follows k (expression k.host frames) (Parser.expressionWithin (maxNesting - k.depth)) := by
  induction frames generalizing k with
  | zero => omega
  | succ frames ih =>
    intro c r errors hat hbalanced
    rw [expression, ends_bind, ends_get, hbalanced.expressionDepth_eq]
    have hdeeper := k.depth_deeper
    -- At the limit both complain at once; below it the call has one level less.
    by_cases hdeep : k.depth = maxNesting
    · have hlevels : maxNesting - k.depth = 0 := by omega
      rw [if_pos (by omega), hlevels]
      exact followsAt_complain _ hat hbalanced
    · have hlevels : maxNesting - k.depth = maxNesting - k.deeper.depth + 1 := by omega
      rw [if_neg (by omega), hlevels]
      exact followsAt_call (follows_layers (ih k.deeper (by omega) (by omega)) (by omega) c)
        (by omega) hat hbalanced

end Cqasm.Machine
