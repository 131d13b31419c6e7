import Cqasm.Proofs.Grammar.Grouping
import Cqasm.Proofs.Recognition.Expression

/-!
# Expressions have one grouping

A row of tokens is an expression in one way at most (`Grammar.IsExpression.unique`), because reading
it is the same however deep expressions may be nested. So what is read of an expression is the only
tree in which its operators are grouped by their levels, and reading goes on for as long as an
operator or an index could go on with it (`expression_grouping`).
-/

set_option autoImplicit false

namespace Cqasm

open Grammar

variable {file : String}

/-! ## One tree for a row -/

namespace Grammar

/-- A row is an expression in one way at most, however many levels are nested in it. -/
theorem IsExpression.unique {levels levels' : Nat} {ts : List Token} {e e' : Expr}
    (h : IsExpression file levels ts e) (h' : IsExpression file levels' ts e') : e = e' := by
  let stop : Token := default
  have hpasses : (Cursor.mk none ts stop).Passes ts ⟨ts.foldl Cursor.passed none, [], stop⟩ :=
    ⟨(List.append_nil ts).symm, rfl, rfl⟩
  have hstop : Kind.endsExpression (Cursor.mk (ts.foldl Cursor.passed none) [] stop).kind := rfl
  have hread := (Parser.expressionWithin_recognises (max levels levels')).complete hpasses
    (isExpression_mono (le_max_left ..) h) hstop
  have hread' := (Parser.expressionWithin_recognises (max levels levels')).complete hpasses
    (isExpression_mono (le_max_right ..) h') hstop
  cases hread.symm.trans hread'
  rfl

end Grammar

/-! ## Where reading stops -/

namespace Parser

/-- Wherever a parser gets to when it succeeds, the token at hand is of a certain kind. -/
def StopsAt {α : Type} (p : Parser α) (file : String) (stop : Kind → Prop) : Prop :=
  ∀ ⦃c behind v⦄, c.Ended → p.run file c = .ok v behind → stop behind.kind

variable {α τ : Type} {stop : Kind → Prop}

theorem ended_of_run {p : Parser α} {c behind : Cursor} {v : α} (hc : c.Ended)
    (h : p.run file c = .ok v behind) : behind.Ended := by
  obtain ⟨_, hpasses⟩ := p.passes file c
  rw [h] at hpasses
  exact hpasses.ended hc

/-- Items are read until no other one starts, and what stops an item stops all of them. -/
theorem stop_of_runMany {starts : Kind → Option τ} {item : τ → Token → Parser α}
    (heof : starts .eof = none) (hitem : ∀ tag token, (item tag token).StopsAt file stop)
    {c behind : Cursor} {vs : List α} (hc : c.Ended) (hstop : stop c.kind)
    (hrun : (many starts item).run file c = .ok vs behind) :
    stop behind.kind ∧ starts behind.kind = none := by
  change runMany starts item file c = .ok vs behind at hrun
  -- Over the repetition: it stops where the last item has stopped, or where it began.
  fun_induction runMany starts item file c generalizing vs with
  | case1 c h =>
    cases hrun
    rw [hc.kind_eq_eof_iff.2 h] at hstop ⊢
    exact ⟨hstop, heof⟩
  | case2 c token tokens h hnone =>
    cases hrun
    refine ⟨hstop, ?_⟩
    rw [Cursor.kind, Cursor.current_of_cons h, hnone]
  | case3 => cases hrun
  | case4 c token tokens h tag _ value middle hitemRun ih =>
    have hstep := (Cursor.passes_advance h).ended hc
    cases hrest : runMany starts item file middle with
    | failed failure stuck =>
      rw [hrest] at hrun
      cases hrun
    | ok values last =>
      rw [hrest] at hrun
      cases hrun
      exact ih (ended_of_run hstep hitemRun) (hitem tag token hstep hitemRun) hrest

variable {sub operand : Parser Expr}

theorem indexed_stopsAt : (indexed sub).StopsAt file (· ≠ .leftBracket) := by
  intro c behind v hc hrun
  obtain ⟨base, middle, hbase, hrun⟩ := run_bind_eq_ok.1 hrun
  obtain ⟨indices, last, hindices, hrun⟩ := run_bind_eq_ok.1 hrun
  obtain ⟨-, rfl⟩ := run_pure_eq_ok.1 hrun
  have hitem (_ : Unit) (_ : Token) : (indexTail sub).StopsAt file fun _ => True :=
    fun _ _ _ _ _ => trivial
  obtain ⟨-, hnone⟩ := stop_of_runMany rfl hitem (ended_of_run hc hbase) trivial hindices
  intro hbracket
  rw [hbracket] at hnone
  cases hnone

theorem unary_stopsAt : (unary sub).StopsAt file (· ≠ .leftBracket) := by
  intro c behind v hc hrun
  obtain ⟨operators, middle, hoperators, hrun⟩ := run_bind_eq_ok.1 hrun
  obtain ⟨e, last, he, hrun⟩ := run_bind_eq_ok.1 hrun
  obtain ⟨-, rfl⟩ := run_pure_eq_ok.1 hrun
  exact indexed_stopsAt (ended_of_run hc hoperators) he

/-- Behind a chain there is neither what stops its operands nor one more of its operators. -/
theorem StopsAt.chain {operator? : Kind → Option BinaryOperator} (heof : operator? .eof = none)
    (hoperand : operand.StopsAt file stop)
    (join : Expr → List (BinaryOperator × Expr) → Expr) :
    (do
        let first ← operand
        let rest ← rightSides operator? operand
        return join first rest : Parser Expr).StopsAt file
      (fun k => stop k ∧ operator? k = none) := by
  intro c behind v hc hrun
  obtain ⟨first, middle, hfirst, hrun⟩ := run_bind_eq_ok.1 hrun
  obtain ⟨rest, last, hrest, hrun⟩ := run_bind_eq_ok.1 hrun
  obtain ⟨-, rfl⟩ := run_pure_eq_ok.1 hrun
  refine stop_of_runMany heof (fun operator token => ?_) (ended_of_run hc hfirst)
    (hoperand hc hfirst) hrest
  intro c behind v hc hrun
  obtain ⟨e, stuck, he, hrun⟩ := run_bind_eq_ok.1 hrun
  obtain ⟨-, rfl⟩ := run_pure_eq_ok.1 hrun
  exact hoperand hc he

theorem StopsAt.levels {levels? : List (Kind → Option BinaryOperator)}
    (heof : ∀ operator? ∈ levels?, operator? .eof = none) (hoperand : operand.StopsAt file stop) :
    (levels?.foldr leftAssociative operand).StopsAt file
      (fun k => stop k ∧ ∀ operator? ∈ levels?, operator? k = none) := by
  induction levels? with
  | nil => exact fun _ _ _ hc hrun => ⟨hoperand hc hrun, fun _ h => nomatch h⟩
  | cons operator? levels? ih =>
    obtain ⟨hfirst, hrest⟩ := List.forall_mem_cons.1 heof
    intro c behind v hc hrun
    obtain ⟨⟨hstop, htighter⟩, hnone⟩ := StopsAt.chain hfirst (ih hrest) Expr.joinLeft hc hrun
    exact ⟨hstop, List.forall_mem_cons.2 ⟨hnone, htighter⟩⟩

theorem ne_kind_of_operator?_eq_none {kind : Kind} (hpower : powerOperator? kind = none)
    (hleft : ∀ operator? ∈ leftAssociativeLevels, operator? kind = none)
    (operator : BinaryOperator) : kind ≠ operator.kind := by
  rintro rfl
  cases operator <;>
    simp [BinaryOperator.kind, powerOperator?, leftAssociativeLevels] at hpower hleft

/-- An expression is read as far as there is an operator or an index to go on with. -/
theorem expressionWithin_stopsAt (levels : Nat) :
    (expressionWithin levels).StopsAt file
      (fun k => (∀ operator : BinaryOperator, k ≠ operator.kind) ∧ k ≠ .leftBracket) := by
  intro c behind v hc hrun
  cases levels with
  | zero => cases hrun
  | succ levels =>
    have hpower : (power (expressionWithin levels)).StopsAt file _ :=
      StopsAt.chain rfl unary_stopsAt Expr.joinRight
    obtain ⟨⟨hbracket, hnone⟩, hleft⟩ := StopsAt.levels (by decide) hpower hc hrun
    exact ⟨ne_kind_of_operator?_eq_none hnone hleft, hbracket⟩

end Parser

/-! ## What is read -/

/-- Wherever an expression is read, it is the only tree for the tokens passed in which all operators
are grouped by their levels, and no operator and no index follows that could go on with it. -/
theorem expression_grouping {levels : Nat} {c behind : Cursor} {e : Expr} (hc : c.Ended)
    (hrun : (Parser.expressionWithin levels).run file c = .ok e behind) :
    ∃ ts, c.Passes ts behind ∧ (∀ e', Grouped file ts e' ↔ e' = e) ∧
      (∀ operator : BinaryOperator, behind.kind ≠ operator.kind) ∧
      behind.kind ≠ .leftBracket := by
  obtain ⟨ts, hpasses, he⟩ := (Parser.expressionWithin_recognises levels).sound hc hrun
  refine ⟨ts, hpasses, fun e' => ?_, Parser.expressionWithin_stopsAt levels hc hrun⟩
  rw [grouped_iff]
  constructor
  · rintro ⟨levels', he'⟩
    exact he'.unique he
  · rintro rfl
    exact ⟨levels, he⟩

/-- Of two differences in a row, the first one is an operand of the second. -/
theorem expression_grouping_difference :
    let c := Cursor.ofStream (.ofText "a-b-c".toList)
    ∃ a b rhs range range' behind, c.Ended ∧ (Parser.expressionWithin 1).run "f" c =
        .ok (.binary .subtract (.binary .subtract a b range) rhs range') behind ∧
      ∃ ts, c.Passes ts behind ∧
        (∀ e', Grouped "f" ts e' ↔
          e' = .binary .subtract (.binary .subtract a b range) rhs range') ∧
        (∀ operator : BinaryOperator, behind.kind ≠ operator.kind) ∧
        behind.kind ≠ .leftBracket := by
  intro c
  obtain ⟨a, minus, b, minus', rhs, hc, hkinds⟩ : ∃ a minus b minus' rhs : Token,
      c.tokens = [a, minus, b, minus', rhs] ∧ [a, minus, b, minus', rhs].map (·.kind) =
        [.identifier, .minus, .identifier, .minus, .identifier] := ⟨_, _, _, _, _, rfl, rfl⟩
  simp only [List.map_cons, List.map_nil, List.cons.injEq, and_true] at hkinds
  obtain ⟨ha, hminus, hb, hminus', hrhs⟩ := hkinds
  have hended : c.Ended := ⟨rfl, by rw [hc]; simp [ha, hminus, hb, hminus', hrhs]⟩
  -- the tree of the subtraction that is written first, with the other one around it
  have he : IsExpression "f" 1 [a, minus, b, minus', rhs] _ :=
    (groupedWithin_iff 1).1 ⟨.joined (.joined (.operand [a] _) .subtract minus (.operand [b] _))
      .subtract minus' (.operand [rhs] _),
      ⟨⟨.name (.mk ha), hminus, .name (.mk hb)⟩, hminus', .name (.mk hrhs)⟩,
      ⟨⟨trivial, trivial, by simp [OperatorTree.Binds, OperatorTree.operator?]⟩, trivial,
        by simp [OperatorTree.Binds, OperatorTree.operator?]⟩, trivial, rfl, rfl⟩
  have hall : c.tokens = [a, minus, b, minus', rhs] ++ [] := hc
  obtain ⟨behind, hpasses, hbehind⟩ := Cursor.exists_passes_of_append hall
  have hstop : behind.kind.endsExpression := by
    rw [(hpasses.ended hended).kind_eq_eof_iff.2 hbehind]
    rfl
  have hrun := (Parser.expressionWithin_recognises 1).complete hpasses he hstop
  exact ⟨_, _, _, _, _, behind, hended, hrun, expression_grouping hended hrun⟩

end Cqasm
