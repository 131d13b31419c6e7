import Cqasm.Proofs.Recognition.Program

/-!
# Brackets keep a statement together

Separators are passed inside brackets only, and whoever opens a bracket closes it before anything
else goes on. So the tokens that a parser passes lead from one depth of brackets to another, and
never past a separator outside of them, whether it succeeds or fails (`Parser.Nests`). A statement
without braces starts and ends at depth zero, and a failure in it leaves no brace open
(`Parser.nested_statement`): wherever it is read, it stays in front of the first separator at the
depth where it began.
-/

set_option autoImplicit false

namespace Cqasm

/-! ## Depth -/

/-- The depth behind a token at some depth of brackets, if a statement may go on behind it. It may
not at a separator outside of brackets, at a bracket that closes nothing, or at a brace: those only
stand around a whole statement. -/
def Kind.depthBehind (depth : Nat) (kind : Kind) : Option Nat :=
  match kind with
  | .leftParen | .leftBracket => some (depth + 1)
  | .rightParen | .rightBracket =>
    match depth with
    | 0 => none
    | depth + 1 => some depth
  | .newline | .semicolon => if depth = 0 then none else some depth
  | .leftBrace | .rightBrace => none
  | _ => some depth

/-- The depth behind a row of tokens. -/
def depthBehind (depth : Nat) (ts : List Token) : Option Nat :=
  ts.foldlM (fun depth token => token.kind.depthBehind depth) depth

section

variable {depth depth' : Nat} {kind : Kind} {token : Token} {ts us : List Token}

theorem depthBehind_cons (depth : Nat) (token : Token) (ts : List Token) :
    depthBehind depth (token :: ts) = (token.kind.depthBehind depth).bind (depthBehind · ts) := rfl

/-- Depth is counted token by token, so a row may be cut anywhere. -/
theorem depthBehind_append (depth : Nat) (ts us : List Token) :
    depthBehind depth (ts ++ us) = (depthBehind depth ts).bind (depthBehind · us) :=
  List.foldlM_append ..

theorem exists_depth_of_cons (h : depthBehind depth (token :: ts) = some depth') :
    ∃ middle, token.kind.depthBehind depth = some middle ∧ depthBehind middle ts = some depth' :=
  Option.bind_eq_some_iff.1 h

/-- A row that may be passed may be passed as far as any of its beginnings, and the rest of it from
there. -/
theorem exists_depth_of_append (h : depthBehind depth (ts ++ us) = some depth') :
    ∃ middle, depthBehind depth ts = some middle ∧ depthBehind middle us = some depth' := by
  rw [depthBehind_append] at h
  exact Option.bind_eq_some_iff.1 h

theorem depthBehind_singleton (depth : Nat) (token : Token) :
    depthBehind depth [token] = token.kind.depthBehind depth := by
  rw [depthBehind_cons]
  exact Option.bind_fun_some _

/-- Inside of brackets a separator is one of rows or of nothing, and ends no statement. -/
theorem Kind.depthBehind_of_isSeparator (hkind : kind.isSeparator) (hdepth : 0 < depth) :
    kind.depthBehind depth = some depth := by
  have hne : depth ≠ 0 := by omega
  cases kind <;> first | cases hkind; done | exact if_neg hne

theorem depthBehind_of_separators (h : ∀ token ∈ ts, token.kind.isSeparator) (hdepth : 0 < depth) :
    depthBehind depth ts = some depth := by
  induction ts with
  | nil => rfl
  | cons token ts ih =>
    obtain ⟨htoken, hts⟩ := List.forall_mem_cons.1 h
    rw [depthBehind_cons, Kind.depthBehind_of_isSeparator htoken hdepth, Option.bind_some]
    exact ih hts

/-- Brackets further out are not touched: a token that leads anywhere from a depth leads as far from
a greater one. -/
theorem Kind.depthBehind_add (h : kind.depthBehind depth = some depth') (more : Nat) :
    kind.depthBehind (depth + more) = some (depth' + more) := by
  cases kind
  case leftParen | leftBracket =>
    cases h
    exact congrArg some (Nat.add_right_comm ..)
  case rightParen | rightBracket =>
    cases depth with
    | zero => cases h
    | succ depth =>
      cases h
      rw [Nat.add_right_comm]
      rfl
  -- A separator is passed inside of brackets only, and the greater depth is inside as well.
  case newline | semicolon =>
    cases depth with
    | zero => cases h
    | succ depth =>
      cases h
      exact if_neg (by omega)
  case leftBrace | rightBrace => cases h
  all_goals
    cases h
    rfl

/-- Further inside brackets, a row leads as much further in. -/
theorem depthBehind_add (h : depthBehind depth ts = some depth') (more : Nat) :
    depthBehind (depth + more) ts = some (depth' + more) := by
  induction ts generalizing depth with
  | nil =>
    cases h
    rfl
  | cons token ts ih =>
    obtain ⟨middle, hmiddle, hrest⟩ := exists_depth_of_cons h
    rw [depthBehind_cons, Kind.depthBehind_add hmiddle more, Option.bind_some]
    exact ih hrest

/-- A row with balanced brackets is passed at any depth. -/
theorem depthBehind_of_balanced (h : depthBehind 0 ts = some 0) (depth : Nat) :
    depthBehind depth ts = some depth := by
  have hdeeper := depthBehind_add h depth
  rwa [Nat.zero_add] at hdeeper

end

/-! ## What a parser passes -/

/-- Reading from a cursor leads from one depth of brackets to another one. If it fails it has passed
no more than may stand in a statement, and it has left no brace open. -/
inductive Nested {α : Type} (c : Cursor) (depth depth' : Nat) : Outcome α → Prop
  | ok {value : α} {ts : List Token} {behind : Cursor} :
      c.Passes ts behind → depthBehind depth ts = some depth' →
      Nested c depth depth' (.ok value behind)
  | failed {failure : Failure} {ts : List Token} {stuck : Cursor} :
      c.Passes ts stuck → (depthBehind depth ts).isSome → failure.openBraces = 0 →
      Nested c depth depth' (.failed failure stuck)

section

variable {α : Type} {c middle : Cursor} {i j k : Nat} {ts : List Token} {outcome : Outcome α}

/-- What is read behind some tokens goes on from the depth behind them. -/
theorem Nested.behind (hts : c.Passes ts middle) (hdepth : depthBehind i ts = some j)
    (h : Nested middle j k outcome) : Nested c i k outcome := by
  cases h with
  | ok hus hdepth' =>
    refine .ok (hts.trans hus) ?_
    rw [depthBehind_append, hdepth]
    exact hdepth'
  | failed hus hsome hbraces =>
    refine .failed (hts.trans hus) ?_ hbraces
    rw [depthBehind_append, hdepth]
    exact hsome

/-- What is made of a value makes no difference to what was passed. -/
theorem Nested.map {β : Type} (f : α → β) (h : Nested c i j outcome) :
    Nested c i j (outcome.map f) := by
  cases h with
  | ok hts hdepth => exact .ok hts hdepth
  | failed hts hsome hbraces => exact .failed hts hsome hbraces

end

namespace Parser

/-- A parser leads from one depth of brackets to another one wherever it starts. -/
def Nests {α : Type} (p : Parser α) (depth depth' : Nat) : Prop :=
  ∀ file c, c.Ended → Nested c depth depth' (p.run file c)

variable {α β τ : Type} {p : Parser α} {file : String} {c : Cursor} {i j k : Nat} {kind : Kind}

/-! ## Sequences -/

theorem nests_pure (value : α) : (pure value : Parser α).Nests i i :=
  fun _ c _ => .ok c.passes_nil rfl

theorem nests_look (f : String → Cursor → α) : (look f).Nests i i :=
  fun _ c _ => .ok c.passes_nil rfl

/-- Where nothing has been passed, any depth may be promised behind. -/
theorem nests_fail (complaint : Complaint) : (fail complaint : Parser α).Nests i j :=
  fun _ c _ => .failed c.passes_nil rfl rfl

/-- Of two steps, the second one starts at the depth that the first leads to. If the first fails, so
does the whole, and has passed no more. -/
theorem nested_bind {f : α → Parser β} (hc : c.Ended) (h : Nested c i j (p.run file c))
    (hf : ∀ value, (f value).Nests j k) : Nested c i k ((p >>= f).run file c) := by
  rw [run_bind]
  generalize p.run file c = outcome at h ⊢
  cases h with
  | ok hts hdepth => exact .behind hts hdepth (hf _ file _ (hts.ended hc))
  | failed hts hsome hbraces => exact .failed hts hsome hbraces

theorem nests_bind {f : α → Parser β} (h : p.Nests i j) (hf : ∀ value, (f value).Nests j k) :
    (p >>= f).Nests i k :=
  fun file c hc => nested_bind hc (h file c hc) hf

/-! ## Single steps -/

/-- Reading goes on behind the token at hand, or at the end of the text, which is not passed. -/
theorem nested_advance (file : String) (hc : c.Ended) (hkind : c.kind = kind)
    (h : kind.depthBehind i = some j) (hp : p.Nests j k) :
    Nested c i k (p.run file c.advance) := by
  subst hkind
  cases htokens : c.tokens with
  | nil =>
    rw [hc.kind_eq_eof_iff.2 htokens] at h
    cases h
    rw [Cursor.advance, htokens]
    exact hp file c hc
  | cons token tokens =>
    have hstep := Cursor.passes_advance htokens
    refine .behind hstep ?_ (hp file _ (hstep.ended hc))
    rw [depthBehind_singleton, ← Cursor.current_of_cons htokens]
    exact h

theorem nested_advance_bind {f : Unit → Parser β} (hc : c.Ended) (hkind : c.kind = kind)
    (h : kind.depthBehind i = some j) (hf : (f ()).Nests j k) :
    Nested c i k ((advance >>= f).run file c) :=
  nested_advance file hc hkind h hf

/-- Behind a token that may or may not be there, one goes on from one of two depths. -/
theorem nests_accept_bind {f : Bool → Parser β} (h : kind.depthBehind i = some j)
    (htrue : (f true).Nests j k) (hfalse : (f false).Nests i k) :
    (accept kind >>= f).Nests i k := by
  intro file c hc
  rw [run_accept_bind]
  split
  · next hkind => exact nested_advance file hc hkind h htrue
  · exact hfalse file c hc

/-- What must be there is passed, or else it is missed and nothing is passed. -/
theorem nests_expectOneOf (kinds : List Kind) (h : kind.depthBehind i = some j) :
    (expectOneOf kinds kind).Nests i j := by
  intro file c hc
  rw [run_expectOneOf]
  split
  · next hkind => exact nested_advance file hc hkind h (nests_pure c.current)
  · exact nests_fail _ file c hc

theorem nests_expect (h : kind.depthBehind i = some j) : (expect kind).Nests i j :=
  nests_expectOneOf _ h

/-- Separators may be passed where a bracket is open, which is why there must be one. -/
theorem nests_pastSeparators (h : 0 < i) : pastSeparators.Nests i i :=
  fun _ c _ =>
    .ok c.passes_pastSeparators (depthBehind_of_separators (Cursor.separators_takeWhile _) h)

theorem nests_pastNewlines (h : 0 < i) : pastNewlines.Nests i i := by
  refine fun _ c _ => .ok c.passes_pastNewlines (depthBehind_of_separators ?_ h)
  intro token htoken
  rw [Cursor.newlines_takeWhile _ token htoken]
  rfl

/-- The end of a statement is looked at, but not passed. -/
theorem nests_statementEnd : statementEnd.Nests i i := by
  intro file c _
  rw [run_statementEnd]
  split
  · exact .ok c.passes_nil rfl
  · exact .failed c.passes_nil rfl rfl

theorem nested_terminated (hc : c.Ended) (h : Nested c i j (p.run file c)) :
    Nested c i j ((terminated p).run file c) :=
  nested_bind hc h fun _ => nests_bind nests_statementEnd fun _ => nests_pure _

/-! ## Repetition -/

/-- Rounds of a loop that each come back to the depth they start at. -/
theorem nests_many {starts : Kind → Option τ} {item : τ → Token → Parser α}
    (h : ∀ kind tag, starts kind = some tag →
      ∃ j, kind.depthBehind i = some j ∧ ∀ token, (item tag token).Nests j i) :
    (many starts item).Nests i i := by
  intro file c
  show c.Ended → Nested c i i (runMany starts item file c)
  -- The induction is on the rounds of the loop; each comes back to depth `i`, from where the next
  -- one starts.
  fun_induction runMany starts item file c with
  | case1 c => exact fun _ => .ok c.passes_nil rfl
  | case2 c => exact fun _ => .ok c.passes_nil rfl
  | case3 c token tokens htokens tag hstart failure stuck hitem =>
    intro hc
    obtain ⟨j, hdepth, hnests⟩ := h _ _ hstart
    rw [← Cursor.current_of_cons htokens] at hdepth
    have hround := nested_advance file hc rfl hdepth (hnests token)
    rw [hitem] at hround
    cases hround with
    | failed hts hsome hbraces => exact .failed hts hsome hbraces
  | case4 c token tokens htokens tag hstart value behind hitem ih =>
    intro hc
    obtain ⟨j, hdepth, hnests⟩ := h _ _ hstart
    rw [← Cursor.current_of_cons htokens] at hdepth
    have hround := nested_advance file hc rfl hdepth (hnests token)
    rw [hitem] at hround
    cases hround with
    | ok hts hdepth' => exact .behind hts hdepth' ((ih (hts.ended hc)).map _)

/-- Items behind a mark, for marks that open a bracket as well: the item then has to close it. -/
theorem nests_manyAfter {item : Token → Parser α} (hkind : kind.depthBehind i = some j)
    (h : ∀ token, (item token).Nests j i) : (manyAfter kind item).Nests i i := by
  apply nests_many
  intro kind' tag hstart
  split at hstart
  · next heq => exact ⟨j, heq ▸ hkind, h⟩
  · cases hstart

theorem nests_separatedBy {item : Parser α} (hkind : kind.depthBehind i = some i)
    (h : item.Nests i i) : (separatedBy kind item).Nests i i :=
  nests_bind h fun _ => nests_bind (nests_manyAfter hkind fun _ => h) fun _ => nests_pure _

/-! ## Expressions -/

theorem nests_identifier : identifier.Nests i i := by
  apply nests_bind (nests_expect rfl)
  intro token
  exact nests_bind (nests_look _) fun _ => nests_pure _

variable {sub : Parser Expr}

theorem nests_expressionList (hsub : sub.Nests i i) : (expressionList sub).Nests i i :=
  nests_separatedBy rfl hsub

theorem nests_expressionsBefore (closing : Kind) (hsub : sub.Nests i i) :
    (expressionsBefore closing sub).Nests i i := by
  apply nests_bind (nests_look _)
  intro isClosing
  cases isClosing with
  | true => exact nests_pure _
  | false => exact nests_expressionList hsub

theorem nests_matrixElement (hsub : sub.Nests (i + 1) (i + 1)) :
    (matrixElement sub).Nests (i + 1) (i + 1) := by
  have hnewlines : pastNewlines.Nests (i + 1) (i + 1) := nests_pastNewlines (Nat.succ_pos i)
  apply nests_bind hnewlines
  intro _
  apply nests_bind hsub
  intro e
  exact nests_bind hnewlines fun _ => nests_pure e

/-- Between the elements of a matrix there are separators, but its bracket is open. -/
theorem nested_matrix (hc : c.Ended) (hkind : c.kind = .leftBracket)
    (hsub : sub.Nests (i + 1) (i + 1)) : Nested c i i ((matrix sub).run file c) := by
  rw [matrix, run_here_bind]
  apply nested_advance_bind hc hkind rfl
  apply nests_bind (nests_matrixElement hsub)
  intro first
  apply nests_bind (j := i + 1)
  · apply nests_many
    intro kind opensRow hstart
    refine ⟨i + 1, ?_, fun _ => nests_bind (nests_matrixElement hsub) fun _ => nests_pure _⟩
    cases kind <;> first | cases hstart; done | rfl
  intro rest
  apply nests_bind (nests_expectOneOf _ rfl)
  intro _
  exact nests_bind (nests_look _) fun _ => nests_pure _

/-- The parentheses of a call are opened and closed by it. -/
theorem nests_identifierOrCall (hsub : sub.Nests (i + 1) (i + 1)) :
    (identifierOrCall sub).Nests i i := by
  apply nests_bind (nests_look _)
  intro start
  apply nests_bind nests_identifier
  intro name
  apply nests_accept_bind (j := i + 1) rfl
  · apply nests_bind (nests_expressionsBefore _ hsub)
    intro args
    apply nests_bind (nests_expectOneOf _ rfl)
    intro _
    exact nests_bind (nests_look _) fun _ => nests_pure _
  · exact nests_pure _

theorem nested_parenthesised (hc : c.Ended) (hkind : c.kind = .leftParen)
    (hsub : sub.Nests (i + 1) (i + 1)) : Nested c i i ((parenthesised sub).run file c) := by
  rw [parenthesised, run_here_bind]
  apply nested_advance_bind hc hkind rfl
  apply nests_bind hsub
  intro inner
  apply nests_bind (nests_expect rfl)
  intro _
  exact nests_bind (nests_look _) fun _ => nests_pure _

theorem nested_literal (hc : c.Ended) (hkind : c.kind = kind) (h : kind.depthBehind i = some i)
    (make : List Char → Location → Expr) : Nested c i i ((literal make).run file c) := by
  rw [literal, run_current_bind]
  exact nested_advance_bind hc hkind h (nests_bind (nests_look _) fun _ => nests_pure _)

theorem nested_integerLiteral (hc : c.Ended) (hkind : c.kind = .integer) :
    Nested c i i (integerLiteral.run file c) := by
  rw [integerLiteral, run_current_bind]
  dsimp only
  split
  · exact nests_fail _ file c hc
  · exact nested_advance_bind hc hkind rfl (nests_bind (nests_look _) fun _ => nests_pure _)

/-- Whatever stands by itself has its brackets in balance. Each bracket is closed by the parser that
has passed the opening one. -/
theorem nests_primary (hsub : sub.Nests (i + 1) (i + 1)) : (primary sub).Nests i i := by
  intro file c hc
  rw [primary, run_current_bind]
  split
  · next hkind => exact nested_integerLiteral hc hkind
  · next hkind => exact nested_literal hc hkind rfl _
  · next hkind => exact nested_literal hc hkind rfl _
  · next hkind => exact nested_literal hc hkind rfl _
  · exact nests_identifierOrCall hsub file c hc
  · next hkind => exact nested_parenthesised hc hkind hsub
  · next hkind => exact nested_matrix hc hkind hsub
  · exact nests_fail _ file c hc

/-! ## Layers -/

theorem nests_indexEntry (hsub : sub.Nests i i) : (indexEntry sub).Nests i i := by
  apply nests_bind hsub
  intro first
  apply nests_accept_bind rfl
  · exact nests_bind hsub fun _ => nests_pure _
  · exact nests_pure _

/-- An index starts behind its opening bracket, so it leads one level out. -/
theorem nests_indexTail (hsub : sub.Nests (i + 1) (i + 1)) : (indexTail sub).Nests (i + 1) i := by
  apply nests_bind (nests_separatedBy rfl (nests_indexEntry hsub))
  intro entries
  apply nests_bind (nests_expectOneOf _ rfl)
  intro close
  exact nests_bind (nests_look _) fun _ => nests_pure _

theorem nests_indexed (hsub : sub.Nests (i + 1) (i + 1)) : (indexed sub).Nests i i := by
  apply nests_bind (nests_primary hsub)
  intro base
  exact nests_bind (nests_manyAfter rfl fun _ => nests_indexTail hsub) fun _ => nests_pure _

theorem nests_unary (hsub : sub.Nests (i + 1) (i + 1)) : (unary sub).Nests i i := by
  apply nests_bind (j := i)
  · apply nests_many
    intro kind operator hstart
    refine ⟨i, ?_, fun _ => nests_bind (nests_look _) fun _ => nests_pure _⟩
    cases kind <;> first | cases hstart; done | rfl
  intro operators
  exact nests_bind (nests_indexed hsub) fun _ => nests_pure _

/-- No operator changes the depth. -/
theorem nests_rightSides {operator? : Kind → Option BinaryOperator} {operand : Parser Expr}
    (hoperator : ∀ kind operator, operator? kind = some operator → kind.depthBehind i = some i)
    (h : operand.Nests i i) : (rightSides operator? operand).Nests i i := by
  apply nests_many
  intro kind operator hstart
  exact ⟨i, hoperator kind operator hstart, fun _ => nests_bind h fun _ => nests_pure _⟩

theorem nests_power (hsub : sub.Nests (i + 1) (i + 1)) : (power sub).Nests i i := by
  apply nests_bind (nests_unary hsub)
  intro first
  apply nests_bind (nests_rightSides ?_ (nests_unary hsub)) fun _ => nests_pure _
  intro kind operator hstart
  cases kind <;> first | cases hstart; done | rfl

/-- No operator is a bracket, a brace or a separator. -/
theorem depthBehind_of_leftAssociative {operator? : Kind → Option BinaryOperator}
    (hlevel : operator? ∈ leftAssociativeLevels) {operator : BinaryOperator}
    (hstart : operator? kind = some operator) : kind.depthBehind i = some i := by
  simp only [leftAssociativeLevels, List.mem_cons, List.not_mem_nil, or_false] at hlevel
  rcases hlevel with rfl | rfl | rfl | rfl | rfl | rfl <;>
    cases kind <;> first | cases hstart; done | rfl

theorem nests_leftAssociative {operator? : Kind → Option BinaryOperator} {operand : Parser Expr}
    (hlevel : operator? ∈ leftAssociativeLevels) (h : operand.Nests i i) :
    (leftAssociative operator? operand).Nests i i := by
  apply nests_bind h
  intro first
  apply nests_bind (nests_rightSides ?_ h) fun _ => nests_pure _
  exact fun kind operator hstart => depthBehind_of_leftAssociative hlevel hstart

/-- By induction on the levels that are looser than powers. -/
theorem nests_layers (hsub : sub.Nests (i + 1) (i + 1)) : (layers sub).Nests i i := by
  have hlevels {levels : List (Kind → Option BinaryOperator)}
      (h : ∀ level ∈ levels, level ∈ leftAssociativeLevels) :
      (levels.foldr leftAssociative (power sub)).Nests i i := by
    induction levels with
    | nil => exact nests_power hsub
    | cons level levels ih =>
      obtain ⟨hlevel, hlevels⟩ := List.forall_mem_cons.1 h
      exact nests_leftAssociative hlevel (ih hlevels)
  exact hlevels fun _ h => h

/-- What is nested in an expression stands one bracket deeper. -/
theorem nests_expressionWithin (levels i : Nat) : (expressionWithin levels).Nests i i := by
  induction levels generalizing i with
  | zero => exact nests_fail _
  | succ levels ih => exact nests_layers (ih (i + 1))

theorem nests_expression : expression.Nests i i :=
  nests_expressionWithin maxNesting i

/-! ## Parts of statements -/

theorem nests_optionalOperands : optionalOperands.Nests i i := by
  apply nests_accept_bind rfl
  · apply nests_bind (nests_expressionsBefore _ nests_expression)
    intro operands
    exact nests_bind (nests_expect rfl) fun _ => nests_pure _
  · exact nests_pure _

/-- Behind the sign there are names, a dot and perhaps operands in parentheses. -/
theorem nests_annotTail (sign : Token) : (annotTail sign).Nests i i := by
  apply nests_bind (nests_look _)
  intro start
  apply nests_bind nests_identifier
  intro interface
  apply nests_bind (nests_expect rfl)
  intro _
  apply nests_bind nests_identifier
  intro operation
  apply nests_bind nests_optionalOperands
  intro operands
  exact nests_bind (nests_look _) fun _ => nests_pure _

theorem nests_annotations : annotations.Nests i i :=
  nests_manyAfter rfl nests_annotTail

theorem nests_operandsAfterComma : operandsAfterComma.Nests i i := by
  apply nests_accept_bind rfl
  · exact nests_expressionList nests_expression
  · exact nests_pure _

theorem nests_plainOperands : plainOperands.Nests i i := by
  apply nests_bind (nests_look _)
  intro token
  split
  · exact nests_expressionList nests_expression
  · exact nests_pure _

/-- Annotations and the range stand at the end of most parts of a statement. -/
theorem nests_annotations_bind (start : Location) (f : List Annot → Location → α) :
    (do return f (← annotations) (← rangeFrom start)).Nests i i := by
  apply nests_bind nests_annotations
  intro annots
  exact nests_bind (nests_look _) fun _ => nests_pure _

/-- A gate by itself, or one with a condition; neither has a bracket of its own. -/
theorem nests_instruction : instruction.Nests i i := by
  apply nests_bind (nests_look _)
  intro start
  apply nests_accept_bind rfl
  · apply nests_bind nests_identifier
    intro name
    apply nests_bind nests_expression
    intro condition
    apply nests_bind nests_operandsAfterComma
    intro operands
    exact nests_annotations_bind start _
  · apply nests_bind nests_identifier
    intro name
    apply nests_bind nests_plainOperands
    intro operands
    exact nests_annotations_bind start _

theorem nests_bundle : bundle.Nests i i := by
  apply nests_bind (nests_look _)
  intro start
  apply nests_bind (nests_separatedBy rfl nests_instruction)
  intro items
  exact nests_bind (nests_look _) fun _ => nests_pure _

/-! ## Statements with a keyword -/

theorem nests_assignedName (first : Expr) : (assignedName first).Nests i i := by
  unfold assignedName
  split
  · exact nests_accept_bind rfl (nests_pure _) (nests_pure _)
  · exact nests_pure _

/-- Of the two spellings, one goes on behind a comma and one behind a sign, both outside of
brackets. -/
theorem nested_mapping (hc : c.Ended) (hkind : c.kind = .map) :
    Nested c i i (mapping.run file c) := by
  rw [mapping, run_here_bind]
  apply nested_advance_bind hc hkind rfl
  apply nests_bind nests_expression
  intro first
  apply nests_bind (nests_assignedName first)
  intro target
  cases target with
  | some target =>
    apply nests_bind nests_expression
    intro e
    exact nests_annotations_bind _ _
  | none =>
    apply nests_bind (nests_expectOneOf _ rfl)
    intro _
    apply nests_bind nests_identifier
    intro target
    exact nests_annotations_bind _ _

theorem nested_declaration (hc : c.Ended) (hkind : c.kind = .var) :
    Nested c i i (declaration.run file c) := by
  rw [declaration, run_here_bind]
  apply nested_advance_bind hc hkind rfl
  apply nests_bind (nests_separatedBy rfl nests_identifier)
  intro names
  apply nests_bind (nests_expectOneOf _ rfl)
  intro _
  apply nests_bind nests_identifier
  intro type
  exact nests_annotations_bind _ _

theorem nests_optionalIterations : optionalIterations.Nests i i := by
  apply nests_accept_bind rfl
  · apply nests_bind nests_expression
    intro iterations
    exact nests_bind (nests_expect rfl) fun _ => nests_pure _
  · exact nests_pure _

/-- The number of iterations stands in parentheses, if it is there. -/
theorem nested_subcircuit (hc : c.Ended) (hkind : c.kind = .dot) :
    Nested c i i (subcircuit.run file c) := by
  rw [subcircuit, run_here_bind]
  apply nested_advance_bind hc hkind rfl
  apply nests_bind nests_identifier
  intro name
  apply nests_bind nests_optionalIterations
  intro iterations
  exact nests_annotations_bind _ _

theorem nested_errorModel (hc : c.Ended) (hkind : c.kind = .errorModel) :
    Nested c i i (errorModel.run file c) := by
  rw [errorModel, run_here_bind]
  apply nested_advance_bind hc hkind rfl
  apply nests_bind nests_identifier
  intro name
  apply nests_bind (nests_manyAfter rfl fun _ => nests_expression)
  intro args
  exact nests_annotations_bind _ _

theorem nested_qubits (hc : c.Ended) (hkind : c.kind = .qubits) :
    Nested c i i (qubits.run file c) :=
  nested_advance_bind hc hkind rfl (nests_bind nests_expression fun _ => nests_pure _)

/-- Reading a statement that does not start with a brace comes back to the depth it starts at. -/
theorem nested_statement (file : String) (hc : c.Ended) (hkind : c.kind ≠ .leftBrace) :
    Nested c i i (statement.run file c) := by
  rw [statement, run_current_bind]
  unfold statementAt
  split
  · next h => exact nested_mapping hc h
  · next h => exact nested_declaration hc h
  · next h => exact nested_subcircuit hc h
  · next h => exact nested_errorModel hc h
  · next h => exact absurd h hkind
  · exact nests_bundle file c hc
  · exact nests_bundle file c hc
  · exact nests_fail _ file c hc

end Parser

end Cqasm
