import Cqasm.Proofs.Grammar.Program
import Cqasm.Proofs.Recognition.Operand
import Mathlib.Data.List.Forall2

/-!
# Expressions are recognised

`expressionWithin_recognises`: reading an expression down to a number of levels reads exactly the
expressions of the grammar that are nested no deeper. Layer by layer, a parser that loops is
compared with a rule that calls itself: indices and the chains that group to the left, which are
read flat and folded up, with rules that are recursive on the left, operators in front and powers
with rules that are recursive on the right.
-/

set_option autoImplicit false

namespace Cqasm

open Grammar

namespace Parser

variable {file : String} {c behind : Cursor}

/-! ## Indices -/

section Indices

variable {sub : Parser Expr} {phrase : Phrase Expr}
  (hsub : sub.Recognises file phrase (Kind.endsExpression ·))

include hsub

/-- A colon behind the first expression is all that tells a range from an item. -/
theorem indexEntry_recognises :
    (indexEntry sub).Recognises file (IsEntry phrase)
      (fun k => k.endsExpression ∧ k ≠ .colon) where
  sound {c behind v} hc hrun := by
    obtain ⟨first, middle, hfirst, hrun⟩ := run_bind_eq_ok.1 hrun
    obtain ⟨ts, hts, hfirst⟩ := hsub.sound hc hfirst
    rw [run_accept_bind] at hrun
    by_cases hkind : middle.kind = .colon
    · rw [if_pos hkind, if_pos rfl] at hrun
      obtain ⟨last, stop, hlast, hrun⟩ := run_bind_eq_ok.1 hrun
      obtain ⟨rfl, rfl⟩ := run_pure_eq_ok.1 hrun
      have hc := hts.ended hc
      have hcolon := Cursor.passes_current hc hkind (by decide)
      obtain ⟨us, hus, hlast⟩ := hsub.sound (hcolon.ended hc) hlast
      exact ⟨_, hts.trans (hcolon.trans hus), .range hfirst hkind hlast⟩
    · rw [if_neg hkind, if_neg (by decide)] at hrun
      obtain ⟨rfl, rfl⟩ := run_pure_eq_ok.1 hrun
      exact ⟨ts, hts, .item hfirst⟩
  complete {c behind ts v} hpasses hv hstop := by
    cases hv with
    | item he =>
      rw [indexEntry, run_bind_of_ok _ (hsub.complete hpasses he hstop.1), run_accept_bind,
        if_neg hstop.2, if_neg (by decide)]
      rfl
    | range hfirst hkind hlast =>
      obtain ⟨middle, hts, hrest⟩ := Cursor.passes_append_iff.1 hpasses
      have hcolon : middle.kind = .colon := hrest.kind_eq.trans hkind
      obtain ⟨-, hus⟩ := Cursor.passes_cons_iff.1 hrest
      rw [indexEntry, run_bind_of_ok _ (hsub.complete hts hfirst (by rw [hcolon]; rfl)),
        run_accept_bind, if_pos hcolon, if_pos rfl,
        run_bind_of_ok _ (hsub.complete hus hlast hstop.1)]
      rfl

/-- What follows the opening bracket of an index. -/
abbrev IsIndexTail (file : String) (phrase : Phrase Expr) :
    Phrase (List IndexEntry × Location) :=
  fun ts v => ∃ us closing, ts = us ++ [closing] ∧ SeparatedBy .comma (IsEntry phrase) us v.1 ∧
    closing.kind = .rightBracket ∧ v.2 = closing.location file

theorem indexTail_recognises :
    (indexTail sub).Recognises file (IsIndexTail file phrase) (fun _ => True) where
  sound {c behind v} hc hrun := by
    obtain ⟨entries, middle, hentries, hrun⟩ := run_bind_eq_ok.1 hrun
    obtain ⟨hclose, hrun⟩ := run_expectOneOf_bind_eq_ok.1 hrun
    rw [run_locationOf_bind] at hrun
    obtain ⟨rfl, rfl⟩ := run_pure_eq_ok.1 hrun
    obtain ⟨ts, hts, hentries⟩ :=
      (separatedBy_recognises (indexEntry_recognises hsub) (by decide)).sound hc hentries
    have hclosing := Cursor.passes_current (hts.ended hc) hclose (by decide)
    exact ⟨_, hts.trans hclosing, ts, middle.current, rfl, hentries, hclose, rfl⟩
  complete {c behind ts v} hpasses hv _ := by
    obtain ⟨entries, close⟩ := v
    obtain ⟨us, closing, rfl, hentries, hclose, rfl⟩ := hv
    obtain ⟨middle, hus, hcurrent, rfl⟩ := Cursor.passes_concat hpasses
    have hmiddle : middle.kind = .rightBracket := by rw [Cursor.kind, hcurrent, hclose]
    rw [indexTail, run_bind_of_ok _ ((separatedBy_recognises (indexEntry_recognises hsub)
        (by decide)).complete hus hentries (by rw [hmiddle]; decide)),
      run_expectOneOf_bind _ hcurrent hclose]
    rfl

omit hsub in
/-- Indices stand behind an operand one by one. -/
theorem isPostfix_iff {ts : List Token} {v : Expr} :
    IsPostfix file phrase ts v ↔
      ∃ us vs e indices, ts = us ++ vs ∧ IsPrimary file phrase us e ∧
        Many (Behind .leftBracket (IsIndexTail file phrase)) vs indices ∧
        v = e.indexed indices := by
  constructor
  · intro h
    induction h with
    | primary he => exact ⟨_, [], _, [], (List.append_nil _).symm, he, .nil, rfl⟩
    | @index _ _ _ closing _ entries _ hopen hentries hclose ih =>
      obtain ⟨us, vs, e, indices, rfl, he, hindices, rfl⟩ := ih
      refine ⟨us, _, e, indices ++ [(entries, closing.location file)], List.append_assoc .., he,
        hindices.append (.single (.mk hopen ⟨_, _, rfl, hentries, hclose, rfl⟩)), ?_⟩
      rw [Expr.indexed, Expr.indexed, List.foldl_append]
      rfl
  · rintro ⟨us, vs, e, indices, rfl, he, hindices, rfl⟩
    refine Many.foldl ?_ hindices (.primary he)
    rintro ts _ a ⟨entries, close⟩ ha ⟨hopen, us, closing, rfl, hentries, hclose, rfl⟩
    exact .index ha hopen hentries hclose

/-- Indices are taken for as long as a bracket opens, so none may be left in front. -/
theorem indexed_recognises (hbegins : Begins phrase (startsExpression ·)) :
    (indexed sub).Recognises file (IsPostfix file phrase)
      (fun k => k ≠ .leftParen ∧ k ≠ .leftBracket) where
  sound {c behind v} hc hrun := by
    obtain ⟨e, middle, he, hrun⟩ := run_bind_eq_ok.1 hrun
    obtain ⟨indices, last, hindices, hrun⟩ := run_bind_eq_ok.1 hrun
    obtain ⟨rfl, rfl⟩ := run_pure_eq_ok.1 hrun
    obtain ⟨us, hus, he⟩ := (primary_recognises hsub hbegins).sound hc he
    obtain ⟨vs, hvs, hindices⟩ :=
      (manyAfter_recognises (indexTail_recognises hsub) trivial).sound (hus.ended hc) hindices
    exact ⟨_, hus.trans hvs, isPostfix_iff.2 ⟨us, vs, e, indices, rfl, he, hindices, rfl⟩⟩
  complete {c behind ts v} hpasses hv hstop := by
    obtain ⟨us, vs, e, indices, rfl, he, hindices, rfl⟩ := isPostfix_iff.1 hv
    obtain ⟨middle, hus, hvs⟩ := Cursor.passes_append_iff.1 hpasses
    have hindex : Begins (Behind .leftBracket (IsIndexTail file phrase)) (· ≠ .leftParen) :=
      begins_behind.mono (by decide)
    have hmiddle : middle.kind ≠ .leftParen :=
      hvs.kind_of_head (· ≠ .leftParen) (hindices.head hindex) hstop.1
    rw [indexed, run_bind_of_ok _ ((primary_recognises hsub hbegins).complete hus he hmiddle),
      run_bind_of_ok _ ((manyAfter_recognises (indexTail_recognises hsub) trivial).complete hvs
        hindices ⟨trivial, hstop.2⟩)]
    rfl

end Indices

/-- No operand starts with a sign. -/
theorem begins_postfix {phrase : Phrase Expr} :
    Begins (IsPostfix file phrase) (fun k => startsExpression k ∧ unaryOperator? k = none) := by
  intro ts v hv
  induction hv with
  | primary he => exact begins_primary he
  | index _ _ _ _ ih =>
    obtain ⟨token, us, rfl, hfirst⟩ := ih
    exact ⟨token, _, rfl, hfirst⟩

/-! ## Operators in front -/

section Operators

variable {phrase : Phrase Expr}

/-- Operators in front of an operand, each with its range. -/
abbrev IsSign (file : String) : Phrase (UnaryOperator × Location) :=
  Tagged unaryOperator? fun operator token ts v =>
    ts = [] ∧ v = (operator, token.location file)

theorem unaryOperator?_eq_some_iff (kind : Kind) (operator : UnaryOperator) :
    unaryOperator? kind = some operator ↔
      (kind, operator) ∈ [(Kind.minus, .negate), (.bang, .not), (.tilde, .complement)] := by
  revert kind
  cases operator <;> decide

/-- A sign starts an expression. -/
theorem startsExpression_of_unaryOperator? {kind : Kind} {operator : UnaryOperator}
    (h : unaryOperator? kind = some operator) : startsExpression kind := by
  revert kind
  cases operator <;> decide

/-- Operators stand in front of an operand one by one. -/
theorem isUnary_iff {ts : List Token} {v : Expr} :
    IsUnary file phrase ts v ↔
      ∃ us vs operators e, ts = us ++ vs ∧ Many (IsSign file) us operators ∧
        IsPostfix file phrase vs e ∧ v = e.applied operators := by
  constructor
  · intro h
    induction h with
    | indexed he => exact ⟨[], _, [], _, rfl, .nil, he, rfl⟩
    | operator hsign _ ih =>
      obtain ⟨us, vs, operators, e, rfl, hoperators, he, rfl⟩ := ih
      exact ⟨_ :: us, vs, (_, _) :: operators, e, rfl,
        .cons (.mk ((unaryOperator?_eq_some_iff ..).2 hsign) ⟨rfl, rfl⟩) hoperators, he, rfl⟩
  · rintro ⟨us, vs, operators, e, rfl, hoperators, he, rfl⟩
    induction hoperators with
    | nil => exact .indexed he
    | cons hsign _ ih =>
      obtain ⟨hstart, rfl, rfl⟩ := hsign
      exact .operator ((unaryOperator?_eq_some_iff ..).1 hstart) ih

theorem signs_recognises :
    (many unaryOperator? fun operator token => do
        return (operator, ← locationOf token)).Recognises file (Many (IsSign file))
      (unaryOperator? · = none) := by
  have hsign (operator : UnaryOperator) (token : Token) :
      (do return (operator, ← locationOf token) : Parser (UnaryOperator × Location)).Recognises file
        (fun ts v => ts = [] ∧ v = (operator, token.location file)) (fun _ => True) := by
    constructor
    · intro c behind v _ hrun
      rw [run_locationOf_bind] at hrun
      obtain ⟨rfl, rfl⟩ := run_pure_eq_ok.1 hrun
      exact ⟨[], c.passes_nil, rfl, rfl⟩
    · rintro c behind ts v hpasses ⟨rfl, rfl⟩ -
      rw [run_locationOf_bind, run_pure, hpasses.eq_of_nil]
  exact (many_recognises (fun operator token _ => hsign operator token)
    fun _ _ => trivial).mono fun _ h => ⟨trivial, h⟩

/-- Signs first, then an operand. -/
theorem unary_recognises {sub : Parser Expr}
    (hsub : sub.Recognises file phrase (Kind.endsExpression ·))
    (hbegins : Begins phrase (startsExpression ·)) :
    (unary sub).Recognises file (IsUnary file phrase)
      (fun k => k ≠ .leftParen ∧ k ≠ .leftBracket) where
  sound {c behind v} hc hrun := by
    obtain ⟨operators, middle, hoperators, hrun⟩ := run_bind_eq_ok.1 hrun
    obtain ⟨e, last, he, hrun⟩ := run_bind_eq_ok.1 hrun
    obtain ⟨rfl, rfl⟩ := run_pure_eq_ok.1 hrun
    obtain ⟨us, hus, hoperators⟩ := signs_recognises.sound hc hoperators
    obtain ⟨vs, hvs, he⟩ := (indexed_recognises hsub hbegins).sound (hus.ended hc) he
    exact ⟨_, hus.trans hvs, isUnary_iff.2 ⟨us, vs, operators, e, rfl, hoperators, he, rfl⟩⟩
  complete {c behind ts v} hpasses hv hstop := by
    obtain ⟨us, vs, operators, e, rfl, hoperators, he, rfl⟩ := isUnary_iff.1 hv
    obtain ⟨middle, hus, hvs⟩ := Cursor.passes_append_iff.1 hpasses
    have hmiddle : unaryOperator? middle.kind = none := by
      obtain ⟨token, ws, rfl, -, hfirst⟩ := begins_postfix he
      rw [hvs.kind_eq]
      exact hfirst
    rw [unary, run_bind_of_ok _ (signs_recognises.complete hus hoperators hmiddle),
      run_bind_of_ok _ ((indexed_recognises hsub hbegins).complete hvs he hstop)]
    rfl

theorem begins_unary : Begins (IsUnary file phrase) (startsExpression ·) := by
  intro ts v hv
  cases hv with
  | indexed he => exact begins_postfix.mono (fun _ h => h.1) he
  | operator hsign _ =>
    exact ⟨_, _, rfl, startsExpression_of_unaryOperator? ((unaryOperator?_eq_some_iff ..).2 hsign)⟩

end Operators

/-! ## Operators between operands -/

section Chains

variable {phrase : Phrase Expr} {operand : Parser Expr}
  {operator? : Kind → Option BinaryOperator} {stops : Kind → Prop}

/-- An operator with the operand behind it. -/
abbrev RightSide (operator? : Kind → Option BinaryOperator) (phrase : Phrase Expr) :
    Phrase (BinaryOperator × Expr) :=
  Tagged operator? fun operator _ ts v => v.1 = operator ∧ phrase ts v.2

/-- An operator with its right operand, as often as one comes. -/
theorem rightSides_recognises (hoperand : operand.Recognises file phrase stops)
    (hstops : ∀ k, operator? k ≠ none → stops k) :
    (rightSides operator? operand).Recognises file (Many (RightSide operator? phrase))
      (fun k => stops k ∧ operator? k = none) := by
  refine many_recognises (fun operator _ _ => ⟨?_, ?_⟩) hstops
  · intro c behind v hc hrun
    obtain ⟨e, middle, he, hrun⟩ := run_bind_eq_ok.1 hrun
    obtain ⟨rfl, rfl⟩ := run_pure_eq_ok.1 hrun
    obtain ⟨ts, hts, he⟩ := hoperand.sound hc he
    exact ⟨ts, hts, rfl, he⟩
  · rintro c behind ts ⟨_, e⟩ hpasses ⟨rfl, he⟩ hstop
    rw [run_bind_of_ok _ (hoperand.complete hpasses he hstop)]
    rfl

/-- A first operand and the right sides behind it, read one after the other. -/
theorem chain_recognises (hoperand : operand.Recognises file phrase stops)
    (hstops : ∀ k, operator? k ≠ none → stops k)
    (join : Expr → List (BinaryOperator × Expr) → Expr) :
    (do
        let first ← operand
        let rest ← rightSides operator? operand
        return join first rest : Parser Expr).Recognises file
      (fun ts v => ∃ us vs first rest, ts = us ++ vs ∧ phrase us first ∧
        Many (RightSide operator? phrase) vs rest ∧ v = join first rest)
      (fun k => stops k ∧ operator? k = none) where
  sound {c behind v} hc hrun := by
    obtain ⟨first, middle, hfirst, hrun⟩ := run_bind_eq_ok.1 hrun
    obtain ⟨rest, last, hrest, hrun⟩ := run_bind_eq_ok.1 hrun
    obtain ⟨rfl, rfl⟩ := run_pure_eq_ok.1 hrun
    obtain ⟨us, hus, hfirst⟩ := hoperand.sound hc hfirst
    obtain ⟨vs, hvs, hrest⟩ := (rightSides_recognises hoperand hstops).sound (hus.ended hc) hrest
    exact ⟨_, hus.trans hvs, us, vs, first, rest, rfl, hfirst, hrest, rfl⟩
  complete {c behind ts v} hpasses hv hstop := by
    obtain ⟨us, vs, first, rest, rfl, hfirst, hrest, rfl⟩ := hv
    obtain ⟨middle, hus, hvs⟩ := Cursor.passes_append_iff.1 hpasses
    have hsides : Begins (RightSide operator? phrase) stops := begins_tagged.mono hstops
    have hmiddle : stops middle.kind := hvs.kind_of_head stops (hrest.head hsides) hstop.1
    rw [run_bind_of_ok _ (hoperand.complete hus hfirst hmiddle),
      run_bind_of_ok _ ((rightSides_recognises hoperand hstops).complete hvs hrest hstop)]
    rfl

theorem powerOperator?_eq_some_iff (kind : Kind) (operator : BinaryOperator) :
    powerOperator? kind = some operator ↔ kind = .power ∧ operator = .power := by
  revert kind
  cases operator <;> decide

/-- Powers in a row group to the right. -/
theorem isPower_iff {ts : List Token} {v : Expr} :
    IsPower file phrase ts v ↔
      ∃ us vs first rest, ts = us ++ vs ∧ IsUnary file phrase us first ∧
        Many (RightSide powerOperator? (IsUnary file phrase)) vs rest ∧
        v = first.joinRight rest := by
  constructor
  · intro h
    induction h with
    | operand he => exact ⟨_, [], _, [], (List.append_nil _).symm, he, .nil, rfl⟩
    | operator hlhs hsign _ ih =>
      obtain ⟨us, vs, first, rest, rfl, hfirst, hrest, rfl⟩ := ih
      have htag := (powerOperator?_eq_some_iff _ _).2 ⟨hsign, rfl⟩
      exact ⟨_, _ :: us ++ vs, _, (.power, first) :: rest, rfl, hlhs,
        .cons (.mk htag ⟨rfl, hfirst⟩) hrest, rfl⟩
  · rintro ⟨us, vs, first, rest, rfl, hfirst, hrest, rfl⟩
    induction hrest generalizing us first with
    | nil =>
      rw [List.append_nil]
      exact .operand hfirst
    | cons hside _ ih =>
      obtain @⟨token, _, ws, ⟨operator, next⟩, htag, rfl, hnext⟩ := hside
      obtain ⟨hsign, rfl⟩ := (powerOperator?_eq_some_iff _ _).1 htag
      exact .operator hfirst hsign (ih ws next hnext)

/-- The power groups to the right, so its right operand is a power again. -/
theorem power_recognises {sub : Parser Expr}
    (hsub : sub.Recognises file phrase (Kind.endsExpression ·))
    (hbegins : Begins phrase (startsExpression ·)) :
    (power sub).Recognises file (IsPower file phrase)
      (fun k => (k ≠ .leftParen ∧ k ≠ .leftBracket) ∧ powerOperator? k = none) :=
  (chain_recognises (unary_recognises hsub hbegins) (by decide) Expr.joinRight).congr
    fun _ _ => isPower_iff.symm

variable {operators : List (Kind × BinaryOperator)}

/-- Operators of any other level in a row group to the left. -/
theorem isChain_iff (hoperators : ∀ k o, operator? k = some o ↔ (k, o) ∈ operators)
    {ts : List Token} {v : Expr} :
    IsChain operators phrase ts v ↔
      ∃ us vs first rest, ts = us ++ vs ∧ phrase us first ∧
        Many (RightSide operator? phrase) vs rest ∧ v = first.joinLeft rest := by
  constructor
  · intro h
    induction h with
    | operand he => exact ⟨_, [], _, [], (List.append_nil _).symm, he, .nil, rfl⟩
    | @operator _ _ _ operator _ rhs _ hsign hrhs ih =>
      obtain ⟨us, vs, first, rest, rfl, hfirst, hrest, rfl⟩ := ih
      refine ⟨us, _, first, rest ++ [(operator, rhs)], List.append_assoc .., hfirst,
        hrest.append (.single (.mk ((hoperators _ _).2 hsign) ⟨rfl, hrhs⟩)), ?_⟩
      rw [Expr.joinLeft, Expr.joinLeft, List.foldl_append]
      rfl
  · rintro ⟨us, vs, first, rest, rfl, hfirst, hrest, rfl⟩
    refine Many.foldl ?_ hrest (.operand hfirst)
    rintro ts _ a ⟨operator, rhs⟩ ha ⟨htag, rfl, hrhs⟩
    exact .operator ha ((hoperators _ _).1 htag) hrhs

/-- One level of operators that group to the left. -/
theorem leftAssociative_recognises
    (hoperators : ∀ k o, operator? k = some o ↔ (k, o) ∈ operators)
    (hoperand : operand.Recognises file phrase stops)
    (hstops : ∀ k, operator? k ≠ none → stops k) :
    (leftAssociative operator? operand).Recognises file (IsChain operators phrase)
      (fun k => stops k ∧ operator? k = none) :=
  (chain_recognises hoperand hstops Expr.joinLeft).congr fun _ _ => (isChain_iff hoperators).symm

end Chains

/-! ## All layers -/

section Layers

variable {operand : Parser Expr} {phrase : Phrase Expr} {stops : Kind → Prop}

/-- Levels that share no operator can be stacked: an operator of a looser level stops all tighter
ones. -/
theorem levels_recognise {levels? : List (Kind → Option BinaryOperator)}
    {levels : List (List (Kind × BinaryOperator))}
    (hlevels : List.Forall₂ (fun operator? operators =>
      ∀ k o, operator? k = some o ↔ (k, o) ∈ operators) levels? levels)
    (hdisjoint : levels?.Pairwise fun looser tighter => ∀ k, looser k ≠ none → tighter k = none)
    (hstops : ∀ operator? ∈ levels?, ∀ k, operator? k ≠ none → stops k)
    (hoperand : operand.Recognises file phrase stops) :
    (levels?.foldr leftAssociative operand).Recognises file (levels.foldr IsChain phrase)
      (fun k => stops k ∧ ∀ operator? ∈ levels?, operator? k = none) := by
  induction hlevels with
  | nil => exact hoperand.mono fun k h => h.1
  | @cons operator? operators levels? levels hlevel _ ih =>
    obtain ⟨hhead, htail⟩ := List.pairwise_cons.1 hdisjoint
    have ih := ih htail fun op? hop => hstops op? (List.mem_cons_of_mem _ hop)
    -- The operands end at an operator of this level, since no tighter level has it.
    refine (leftAssociative_recognises hlevel ih ?_).mono ?_
    · intro k hk
      exact ⟨hstops operator? List.mem_cons_self k hk, fun tighter ht => hhead tighter ht k hk⟩
    · intro k h
      exact ⟨⟨h.1, fun tighter ht => h.2 tighter (List.mem_cons_of_mem _ ht)⟩,
        h.2 operator? List.mem_cons_self⟩

theorem leftLevels_eq :
    List.Forall₂ (fun operator? operators => ∀ k o, operator? k = some o ↔ (k, o) ∈ operators)
      leftAssociativeLevels leftLevels := by
  unfold leftAssociativeLevels leftLevels
  repeat' constructor
  all_goals
    intro k o
    revert k
    cases o <;> decide +kernel

/-- No operator belongs to two levels. -/
theorem leftAssociativeLevels_disjoint :
    leftAssociativeLevels.Pairwise fun looser tighter =>
      ∀ k, looser k ≠ none → tighter k = none := by
  decide +kernel

/-- All levels, one inside the other, down to the power. -/
theorem layers_recognise {sub : Parser Expr}
    (hsub : sub.Recognises file phrase (Kind.endsExpression ·))
    (hbegins : Begins phrase (startsExpression ·)) :
    (layers sub).Recognises file (IsLayered file phrase) (Kind.endsExpression ·) :=
  (levels_recognise leftLevels_eq leftAssociativeLevels_disjoint (by decide)
    (power_recognises hsub hbegins)).mono (by decide)

theorem begins_power : Begins (IsPower file phrase) (startsExpression ·) := by
  intro ts v hv
  cases hv with
  | operand he => exact begins_unary he
  | operator hlhs _ _ => exact begins_unary.append hlhs _

theorem begins_chain {operators : List (Kind × BinaryOperator)} {first : Kind → Prop}
    (hphrase : Begins phrase first) : Begins (IsChain operators phrase) first := by
  intro ts v hv
  induction hv with
  | operand he => exact hphrase he
  | operator _ _ _ ih =>
    obtain ⟨token, us, rfl, hfirst⟩ := ih
    exact ⟨token, _, rfl, hfirst⟩

theorem begins_layered : Begins (IsLayered file phrase) (startsExpression ·) := by
  unfold IsLayered
  induction leftLevels with
  | nil => exact begins_power
  | cons _ _ ih => exact begins_chain ih

end Layers

theorem begins_expression (levels : Nat) :
    Begins (IsExpression file levels) (startsExpression ·) := by
  cases levels with
  | zero => exact fun _ _ hv => hv.elim
  | succ levels => exact begins_layered

/-- Reading an expression down to a number of levels reads exactly the expressions that are nested
no deeper. -/
theorem expressionWithin_recognises (levels : Nat) :
    (expressionWithin levels).Recognises file (IsExpression file levels)
      (Kind.endsExpression ·) := by
  induction levels with
  | zero =>
    constructor
    · intro c behind v _ hrun
      cases hrun
    · intro c behind ts v _ hv _
      exact hv.elim
  | succ levels ih => exact layers_recognise ih (begins_expression levels)

theorem expression_recognises :
    expression.Recognises file (IsExpr file) (Kind.endsExpression ·) :=
  expressionWithin_recognises maxNesting

end Parser

end Cqasm
