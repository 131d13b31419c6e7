import Cqasm.Proofs.Grammar.Expression
import Cqasm.Proofs.Recognition.Step

/-!
# Operands are recognised

Names, lists, matrices and everything else that stands by itself: a parser of the expressions inside
it that recognises a phrase makes a parser of operands that recognises the operands over that phrase
(`primary_recognises`).

What makes a reader without any turning back complete is that one token settles everything. Two
facts about the inner expressions say so: the kinds of token that they start with, and the kinds
that stop them because no expression goes on with one (`Kind.endsExpression`).
-/

set_option autoImplicit false

namespace Cqasm

open Grammar

/-! ## Kinds -/

namespace Kind

theorem mem_all (kind : Kind) : kind ∈ eof :: numbered := by
  cases kind <;> decide

/-- What holds of kinds can be tried on every one of them. -/
instance decidableForall (p : Kind → Prop) [DecidablePred p] : Decidable (∀ kind, p kind) :=
  decidable_of_iff (∀ kind ∈ eof :: numbered, p kind)
    ⟨fun h kind => h kind kind.mem_all, fun h kind _ => h kind⟩

/-- No expression goes on with a token of such a kind: it is no operator between two operands, and
opens neither an index nor an argument list. -/
def endsExpression (kind : Kind) : Bool :=
  kind ≠ .leftParen && kind ≠ .leftBracket && kind ≠ .power
    && leftAssociativeLevels.all fun operator? => (operator? kind).isNone

end Kind

namespace Parser

variable {file : String} {c behind : Cursor}

/-! ## Names and lists -/

theorem begins_name : Begins (IsName file) (· = .identifier) := by
  rintro ts id ⟨hkind⟩
  exact ⟨_, _, rfl, hkind⟩

/-- A name is one token, whatever comes behind it. -/
theorem identifier_recognises :
    identifier.Recognises file (IsName file) (fun _ => True) where
  sound hc hrun := by
    obtain ⟨hkind, hrun⟩ := run_expectOneOf_bind_eq_ok.1 hrun
    rw [run_locationOf_bind] at hrun
    obtain ⟨rfl, rfl⟩ := run_pure_eq_ok.1 hrun
    exact ⟨_, Cursor.passes_current hc hkind (by decide), .mk hkind⟩
  complete hpasses hv _ := by
    obtain ⟨hkind⟩ := hv
    obtain ⟨-, hnil⟩ := Cursor.passes_cons_iff.1 hpasses
    rw [identifier, expect, run_expectOneOf_bind _ hpasses.current_eq hkind, run_locationOf_bind,
      run_pure, hnil.eq_of_nil]

section Operands

variable {sub : Parser Expr} {phrase : Phrase Expr}
  (hsub : sub.Recognises file phrase (Kind.endsExpression ·))
  (hbegins : Begins phrase (startsExpression ·))

include hsub

theorem expressionList_recognises :
    (expressionList sub).Recognises file (SeparatedBy .comma phrase)
      (fun k => k.endsExpression ∧ k ≠ .comma) :=
  separatedBy_recognises hsub (by decide)

include hbegins in
/-- A list that a token closes is empty exactly if that token is at hand. -/
theorem expressionsBefore_recognises {closing : Kind} (hends : closing.endsExpression)
    (hcomma : closing ≠ .comma) (hstarts : startsExpression closing = false) :
    (expressionsBefore closing sub).Recognises file (Listed phrase) (· = closing) where
  sound {c behind v} hc hrun := by
    rw [expressionsBefore, run_isAt_bind] at hrun
    by_cases hkind : c.kind = closing
    · rw [if_pos (decide_eq_true hkind)] at hrun
      obtain ⟨rfl, rfl⟩ := run_pure_eq_ok.1 hrun
      exact ⟨[], c.passes_nil, .nil⟩
    · rw [if_neg (by simpa using hkind)] at hrun
      obtain ⟨ts, hts, hlist⟩ := (expressionList_recognises hsub).sound hc hrun
      exact ⟨ts, hts, .some hlist⟩
  complete {c behind ts v} hpasses hv hstop := by
    rw [expressionsBefore, run_isAt_bind]
    cases hv with
    | nil =>
      obtain rfl := hpasses.eq_of_nil
      rw [if_pos (decide_eq_true hstop)]
      rfl
    | some hlist =>
      have hkind : c.kind ≠ closing := by
        obtain ⟨token, us, rfl, hfirst⟩ := hbegins.separatedBy hlist
        intro h
        rw [← hpasses.kind_eq, h, hstarts] at hfirst
        cases hfirst
      rw [if_neg (by simpa using hkind)]
      refine (expressionList_recognises hsub).complete hpasses hlist ?_
      rw [hstop]
      exact ⟨hends, hcomma⟩

/-! ## Matrices -/

include hbegins in
/-- Newlines around an element are passed over. -/
theorem matrixElement_recognises :
    (matrixElement sub).Recognises file (IsElement phrase)
      (fun k => k.endsExpression ∧ k ≠ .newline) where
  sound {c behind v} hc hrun := by
    rw [matrixElement, run_pastNewlines_bind] at hrun
    obtain ⟨e, middle, he, hrun⟩ := run_bind_eq_ok.1 hrun
    rw [run_pastNewlines_bind] at hrun
    obtain ⟨rfl, rfl⟩ := run_pure_eq_ok.1 hrun
    have hbefore := c.passes_pastNewlines
    obtain ⟨ts, hts, he⟩ := hsub.sound (hbefore.ended hc) he
    exact ⟨_, (hbefore.trans hts).trans middle.passes_pastNewlines,
      .mk (Cursor.newlines_takeWhile _) he (Cursor.newlines_takeWhile _)⟩
  complete {c behind ts v} hpasses hv hstop := by
    obtain @⟨before, us, after, e, hbefore, he, hafter⟩ := hv
    obtain ⟨middle, hpasses, hpassesBehind⟩ := Cursor.passes_append_iff.1 hpasses
    obtain ⟨start, hpassesBefore, hts⟩ := Cursor.passes_append_iff.1 hpasses
    have hstart : start.kind ≠ .newline := by
      obtain ⟨token, us, rfl, hfirst⟩ := hbegins he
      rw [hts.kind_eq]
      rintro h
      rw [h] at hfirst
      cases hfirst
    -- Behind the expression there is a newline or, without any, what follows the element.
    have hmiddle : middle.kind.endsExpression := by
      refine hpassesBehind.kind_of_head (Kind.endsExpression ·) ?_ hstop.1
      cases after with
      | nil => exact .inl rfl
      | cons token after =>
        refine .inr ⟨token, after, rfl, ?_⟩
        rw [hafter token List.mem_cons_self]
        decide
    rw [matrixElement, run_pastNewlines_bind, hpassesBefore.pastNewlines_eq hbefore hstart,
      run_bind_of_ok _ (hsub.complete hts he hmiddle), run_pastNewlines_bind,
      hpassesBehind.pastNewlines_eq hafter hstop.2]
    rfl

/-- The elements of a matrix behind the first one, each with whether it opens a row. -/
abbrev LaterElement (phrase : Phrase Expr) : Phrase (Bool × Expr) :=
  Tagged elementSeparator? fun opensRow _ ts v => v.1 = opensRow ∧ IsElement phrase ts v.2

/-- A first row of a matrix and the rows behind it, element by element. -/
def IsElements (phrase : Phrase Expr) (ts : List Token) (row : List Expr)
    (rows : List (List Expr)) : Prop :=
  ∃ us vs first rest, ts = us ++ vs ∧ IsElement phrase us first ∧
    Many (LaterElement phrase) vs rest ∧ Expr.rowsFrom first rest = (row, rows)

omit hsub in
/-- Elements in a row come apart into rows at the semicolons. -/
theorem rowsFrom_of_elements {ts us : List Token} {first : Expr} {rest : List (Bool × Expr)}
    (hfirst : IsElement phrase ts first) (hrest : Many (LaterElement phrase) us rest) :
    ∃ row rows, ts ++ us = row ++ rows ∧
      SeparatedBy .comma (IsElement phrase) row (Expr.rowsFrom first rest).1 ∧
      Many (Behind .semicolon (SeparatedBy .comma (IsElement phrase))) rows
        (Expr.rowsFrom first rest).2 := by
  -- Each separator tells whether the row at hand goes on or the rows so far are one more.
  induction hrest generalizing ts first with
  | nil => exact ⟨ts ++ [], [], by simp, .mk hfirst .nil, .nil⟩
  | cons hnext _ ih =>
    obtain @⟨token, _, vs, ⟨opensRow, next⟩, htag, rfl, hnext⟩ := hnext
    obtain ⟨row, rows, hsplit, hrow, hrows⟩ := ih hnext
    cases opensRow with
    | true =>
      have hkind : token.kind = .semicolon := by
        revert htag
        cases token.kind <;> simp [elementSeparator?]
      refine ⟨ts ++ [], token :: row ++ rows, ?_, .mk hfirst .nil, .cons (.mk hkind hrow) hrows⟩
      simp [hsplit]
    | false =>
      have hkind : token.kind = .comma := by
        revert htag
        cases token.kind <;> simp [elementSeparator?]
      refine ⟨ts ++ token :: row, rows, ?_, .cons hfirst hkind hrow, hrows⟩
      simp [hsplit]

omit hsub in
/-- A comma goes on in the same row. -/
theorem IsElements.comma {ts us : List Token} {token : Token} {e : Expr} {row : List Expr}
    {rows : List (List Expr)} (he : IsElement phrase ts e) (hkind : token.kind = .comma)
    (h : IsElements phrase us row rows) :
    IsElements phrase (ts ++ token :: us) (e :: row) rows := by
  obtain ⟨vs, ws, first, rest, rfl, hfirst, hrest, hrows⟩ := h
  refine ⟨ts, token :: vs ++ ws, e, (false, first) :: rest, rfl, he, .cons ?_ hrest, ?_⟩
  · exact .mk (by rw [hkind]; rfl) ⟨rfl, hfirst⟩
  · rw [Expr.rowsFrom, hrows]
    rfl

omit hsub in
/-- A semicolon starts a new one. -/
theorem IsElements.semicolon {ts us : List Token} {token : Token} {e : Expr} {row : List Expr}
    {rows : List (List Expr)} (he : IsElement phrase ts e) (hkind : token.kind = .semicolon)
    (h : IsElements phrase us row rows) :
    IsElements phrase (ts ++ token :: us) [e] (row :: rows) := by
  obtain ⟨vs, ws, first, rest, rfl, hfirst, hrest, hrows⟩ := h
  refine ⟨ts, token :: vs ++ ws, e, (true, first) :: rest, rfl, he, .cons ?_ hrest, ?_⟩
  · exact .mk (by rw [hkind]; rfl) ⟨rfl, hfirst⟩
  · rw [Expr.rowsFrom, hrows]
    rfl

omit hsub in
/-- A whole row goes in front of what one of its elements can go in front of. -/
theorem IsElements.row {ts us : List Token} {row : List Expr} {rows : List (List Expr)}
    (hrow : SeparatedBy .comma (IsElement phrase) ts row)
    (hlast : ∀ vs e, IsElement phrase vs e → IsElements phrase (vs ++ us) [e] rows) :
    IsElements phrase (ts ++ us) row rows := by
  obtain ⟨hfirst, hrest⟩ := hrow
  rename_i vs ws first rest
  induction hrest generalizing vs first with
  | nil =>
    rw [List.append_nil]
    exact hlast vs first hfirst
  | cons hnext _ ih =>
    obtain ⟨hkind, hnext⟩ := hnext
    have := IsElements.comma hfirst hkind (ih hnext)
    simpa using this

omit hsub in
theorem isElements_of_rows {ts us : List Token} {row : List Expr} {rows : List (List Expr)}
    (hrow : SeparatedBy .comma (IsElement phrase) ts row)
    (hrows : Many (Behind .semicolon (SeparatedBy .comma (IsElement phrase))) us rows) :
    IsElements phrase (ts ++ us) row rows := by
  induction hrows generalizing ts row with
  | nil =>
    refine IsElements.row hrow fun vs e he => ?_
    exact ⟨vs, [], e, [], rfl, he, .nil, rfl⟩
  | cons hnext _ ih =>
    obtain ⟨hkind, hnext⟩ := hnext
    refine IsElements.row hrow fun vs e he => ?_
    exact IsElements.semicolon he hkind (ih hnext)

omit hsub in
/-- The elements of a matrix with their separators are its rows. -/
theorem isRows_iff {ts : List Token} {rows : List (List Expr)} :
    IsRows phrase ts rows ↔
      ∃ us vs first rest, ts = us ++ vs ∧ IsElement phrase us first ∧
        Many (LaterElement phrase) vs rest ∧ rows = Expr.rowsOf first rest := by
  constructor
  · rintro ⟨hrow, hrows⟩
    obtain ⟨us, vs, first, rest, hsplit, hfirst, hrest, hrows⟩ := isElements_of_rows hrow hrows
    refine ⟨us, vs, first, rest, hsplit, hfirst, hrest, ?_⟩
    rw [Expr.rowsOf, hrows]
  · rintro ⟨us, vs, first, rest, rfl, hfirst, hrest, rfl⟩
    obtain ⟨row, rows, hsplit, hrow, hrows⟩ := rowsFrom_of_elements hfirst hrest
    rw [hsplit]
    exact .mk hrow hrows

include hbegins in
theorem laterElements_recognises :
    (many elementSeparator? fun opensRow _ => do
        return (opensRow, ← matrixElement sub)).Recognises file (Many (LaterElement phrase))
      (fun k => (k.endsExpression ∧ k ≠ .newline) ∧ elementSeparator? k = none) := by
  refine many_recognises (fun opensRow _ _ => ⟨?_, ?_⟩) (by decide)
  · intro c behind v hc hrun
    obtain ⟨e, middle, he, hrun⟩ := run_bind_eq_ok.1 hrun
    obtain ⟨rfl, rfl⟩ := run_pure_eq_ok.1 hrun
    obtain ⟨ts, hts, he⟩ := (matrixElement_recognises hsub hbegins).sound hc he
    exact ⟨ts, hts, rfl, he⟩
  · rintro c behind ts ⟨_, e⟩ hpasses ⟨rfl, he⟩ hstop
    rw [run_bind_of_ok _ ((matrixElement_recognises hsub hbegins).complete hpasses he hstop)]
    rfl

include hbegins in
/-- What is read as a matrix is one by the grammar. -/
theorem matrix_sound {v : Expr} (hc : c.Ended) (hkind : c.kind = .leftBracket)
    (hrun : (matrix sub).run file c = .ok v behind) :
    ∃ ts, c.Passes ts behind ∧ IsPrimary file phrase ts v := by
  rw [matrix, run_here_bind, run_advance_bind] at hrun
  obtain ⟨first, middle, hfirst, hrun⟩ := run_bind_eq_ok.1 hrun
  obtain ⟨rest, last, hrest, hrun⟩ := run_bind_eq_ok.1 hrun
  obtain ⟨hclose, hrun⟩ := run_expectOneOf_bind_eq_ok.1 hrun
  rw [run_rangeFrom_bind] at hrun
  obtain ⟨rfl, rfl⟩ := run_pure_eq_ok.1 hrun
  have hopening := Cursor.passes_current hc hkind (by decide)
  have hc := hopening.ended hc
  obtain ⟨us, hus, hfirst⟩ := (matrixElement_recognises hsub hbegins).sound hc hfirst
  have hc := hus.ended hc
  obtain ⟨vs, hvs, hrest⟩ := (laterElements_recognises hsub hbegins).sound hc hrest
  have hclosing := Cursor.passes_current (hvs.ended hc) hclose (by decide)
  have hrow := hopening.trans ((hus.trans hvs).trans hclosing)
  refine ⟨_, hrow, ?_⟩
  rw [hrow.rangeFrom_eq file (by rw [show c.current.kind = _ from hkind]; rfl)]
  exact .matrix hkind (isRows_iff.2 ⟨us, vs, first, rest, rfl, hfirst, hrest, rfl⟩) hclose

include hbegins in
/-- And what is one is read as it. -/
theorem matrix_complete {ts : List Token} {opening closing : Token} {rows : List (List Expr)}
    (hpasses : c.Passes (opening :: (ts ++ [closing])) behind)
    (hopen : opening.kind = .leftBracket) (hrows : IsRows phrase ts rows)
    (hclose : closing.kind = .rightBracket) :
    (matrix sub).run file c =
      .ok (.matrix rows (rangeOf file (opening :: (ts ++ [closing])))) behind := by
  obtain ⟨us, vs, first, rest, rfl, hfirst, hrest, rfl⟩ := isRows_iff.1 hrows
  have hrange := hpasses.rangeFrom_eq file (by rw [hopen]; rfl)
  obtain ⟨-, hinner⟩ := Cursor.passes_cons_iff.1 hpasses
  obtain ⟨last, helements, hcurrent, rfl⟩ := Cursor.passes_concat hinner
  obtain ⟨middle, hus, hvs⟩ := Cursor.passes_append_iff.1 helements
  have hlast : last.kind = .rightBracket := by rw [Cursor.kind, hcurrent, hclose]
  have hlater : Begins (LaterElement phrase) (fun k => k.endsExpression ∧ k ≠ .newline) :=
    begins_tagged.mono (by decide)
  -- Newlines belong to the element in front of them, so none is left behind it.
  have hmiddle : middle.kind.endsExpression ∧ middle.kind ≠ .newline :=
    hvs.kind_of_head (fun k => k.endsExpression ∧ k ≠ .newline) (hrest.head hlater)
      (by rw [hlast]; decide)
  rw [matrix, run_here_bind, run_advance_bind,
    run_bind_of_ok _ ((matrixElement_recognises hsub hbegins).complete hus hfirst hmiddle),
    run_bind_of_ok _ ((laterElements_recognises hsub hbegins).complete hvs hrest
      (by rw [hlast]; decide)),
    run_expectOneOf_bind _ hcurrent hclose, run_rangeFrom_bind, hrange]
  rfl

/-! ## What stands by itself -/

include hbegins in
/-- A name, or a call if a parenthesis follows right behind it. -/
theorem identifierOrCall_sound {v : Expr} (hc : c.Ended)
    (hrun : (identifierOrCall sub).run file c = .ok v behind) :
    ∃ ts, c.Passes ts behind ∧ IsPrimary file phrase ts v := by
  rw [identifierOrCall, run_here_bind] at hrun
  obtain ⟨name, middle, hname, hrun⟩ := run_bind_eq_ok.1 hrun
  obtain ⟨ts, hts, hname⟩ := identifier_recognises.sound hc hname
  rw [run_accept_bind] at hrun
  by_cases hkind : middle.kind = .leftParen
  · rw [if_pos hkind, if_pos rfl] at hrun
    obtain ⟨args, last, hargs, hrun⟩ := run_bind_eq_ok.1 hrun
    obtain ⟨hclose, hrun⟩ := run_expectOneOf_bind_eq_ok.1 hrun
    rw [run_rangeFrom_bind] at hrun
    obtain ⟨rfl, rfl⟩ := run_pure_eq_ok.1 hrun
    have hc := hts.ended hc
    have hopening := Cursor.passes_current hc hkind (by decide)
    have hc := hopening.ended hc
    obtain ⟨us, hus, hargs⟩ :=
      (expressionsBefore_recognises hsub hbegins rfl (by decide) rfl).sound hc hargs
    have hclosing := Cursor.passes_current (hus.ended hc) hclose (by decide)
    have hrow := hts.trans (hopening.trans (hus.trans hclosing))
    refine ⟨_, hrow, ?_⟩
    obtain ⟨hfirst⟩ := hname
    rw [List.singleton_append, hrow.rangeFrom_eq file (by rw [hfirst]; rfl)]
    exact .call (.mk hfirst) hkind hargs hclose
  · rw [if_neg hkind, if_neg (by decide)] at hrun
    obtain ⟨rfl, rfl⟩ := run_pure_eq_ok.1 hrun
    exact ⟨ts, hts, .name hname⟩

theorem parenthesised_sound {v : Expr} (hc : c.Ended) (hkind : c.kind = .leftParen)
    (hrun : (parenthesised sub).run file c = .ok v behind) :
    ∃ ts, c.Passes ts behind ∧ IsPrimary file phrase ts v := by
  rw [parenthesised, run_here_bind, run_advance_bind] at hrun
  obtain ⟨e, last, he, hrun⟩ := run_bind_eq_ok.1 hrun
  obtain ⟨hclose, hrun⟩ := run_expectOneOf_bind_eq_ok.1 hrun
  rw [run_rangeFrom_bind] at hrun
  obtain ⟨rfl, rfl⟩ := run_pure_eq_ok.1 hrun
  have hopening := Cursor.passes_current hc hkind (by decide)
  have hc := hopening.ended hc
  obtain ⟨us, hus, he⟩ := hsub.sound hc he
  have hclosing := Cursor.passes_current (hus.ended hc) hclose (by decide)
  have hrow := hopening.trans (hus.trans hclosing)
  refine ⟨_, hrow, ?_⟩
  rw [List.singleton_append,
    hrow.rangeFrom_eq file (by rw [show c.current.kind = _ from hkind]; rfl)]
  exact .parenthesised hkind he hclose

omit hsub in
/-- A number that is too large is not read at all. -/
theorem integerLiteral_sound {v : Expr} (hc : c.Ended) (hkind : c.kind = .integer)
    (hrun : integerLiteral.run file c = .ok v behind) :
    ∃ ts, c.Passes ts behind ∧ IsPrimary file phrase ts v := by
  rw [integerLiteral, run_current_bind] at hrun
  by_cases hlarge : largestInteger < Literal.natValue c.current.text
  · rw [if_pos hlarge] at hrun
    cases hrun
  · rw [if_neg hlarge, run_advance_bind, run_locationOf_bind] at hrun
    obtain ⟨rfl, rfl⟩ := run_pure_eq_ok.1 hrun
    exact ⟨_, Cursor.passes_current hc hkind (by decide), .integer hkind (Nat.le_of_not_lt hlarge)⟩

omit hsub in
theorem literal_sound {make : List Char → Location → Expr} {kind : Kind} {v : Expr} (hc : c.Ended)
    (hkind : c.kind = kind) (hne : kind ≠ .eof)
    (hphrase : ∀ token : Token, token.kind = kind →
      IsPrimary file phrase [token] (make token.text (token.location file)))
    (hrun : (literal make).run file c = .ok v behind) :
    ∃ ts, c.Passes ts behind ∧ IsPrimary file phrase ts v := by
  rw [literal, run_current_bind, run_advance_bind, run_locationOf_bind] at hrun
  obtain ⟨rfl, rfl⟩ := run_pure_eq_ok.1 hrun
  exact ⟨_, Cursor.passes_current hc hkind hne, hphrase _ hkind⟩

include hbegins in
/-- By the kind of the first token, of which each case is one of the phrases. -/
theorem primary_sound {v : Expr} (hc : c.Ended)
    (hrun : (primary sub).run file c = .ok v behind) :
    ∃ ts, c.Passes ts behind ∧ IsPrimary file phrase ts v := by
  rw [primary, run_current_bind] at hrun
  split at hrun
  · next hkind => exact integerLiteral_sound hc hkind hrun
  · next hkind => exact literal_sound hc hkind (by decide) (fun _ => .float) hrun
  · next hkind => exact literal_sound hc hkind (by decide) (fun _ => .string) hrun
  · next hkind => exact literal_sound hc hkind (by decide) (fun _ => .json) hrun
  · next hkind => exact identifierOrCall_sound hsub hbegins hc hrun
  · next hkind => exact parenthesised_sound hsub hc hkind hrun
  · next hkind => exact matrix_sound hsub hbegins hc hkind hrun
  · cases hrun

include hbegins in
/-- Each phrase is read by the case its first token leads to. -/
theorem primary_complete {ts : List Token} {v : Expr} (hpasses : c.Passes ts behind)
    (hv : IsPrimary file phrase ts v) (hstop : behind.kind ≠ .leftParen) :
    (primary sub).run file c = .ok v behind := by
  rw [primary, run_current_bind]
  -- The first token tells what is read. A name is looked behind, for the parenthesis of a call.
  cases hv with
  | integer hkind hsmall =>
    rw [hpasses.current_eq, hkind]
    obtain ⟨-, hnil⟩ := Cursor.passes_cons_iff.1 hpasses
    change integerLiteral.run file c = _
    rw [integerLiteral, run_current_bind, hpasses.current_eq, if_neg (Nat.not_lt.2 hsmall),
      run_advance_bind, run_locationOf_bind, run_pure, hnil.eq_of_nil]
  | float hkind | string hkind | json hkind =>
    rw [hpasses.current_eq, hkind]
    obtain ⟨-, hnil⟩ := Cursor.passes_cons_iff.1 hpasses
    change (literal _).run file c = _
    rw [literal, run_current_bind, hpasses.current_eq, run_advance_bind, run_locationOf_bind,
      run_pure, hnil.eq_of_nil]
  | name hname =>
    obtain ⟨hkind⟩ := hname
    rw [hpasses.current_eq, hkind]
    change (identifierOrCall sub).run file c = _
    rw [identifierOrCall, run_here_bind,
      run_bind_of_ok _ (identifier_recognises.complete hpasses (.mk hkind) trivial),
      run_accept_bind, if_neg hstop, if_neg (by decide)]
    rfl
  | call hname hopen hargs hclose =>
    obtain ⟨hkind⟩ := hname
    rw [hpasses.current_eq, hkind]
    change (identifierOrCall sub).run file c = _
    have hrange := hpasses.rangeFrom_eq file (by rw [hkind]; rfl)
    obtain ⟨middle, hname, hrest⟩ := Cursor.passes_append_iff.1 hpasses
    have hparen : middle.kind = .leftParen := hrest.kind_eq.trans hopen
    obtain ⟨-, hinner⟩ := Cursor.passes_cons_iff.1 hrest
    obtain ⟨last, hlist, hcurrent, rfl⟩ := Cursor.passes_concat hinner
    have hlast : last.kind = .rightParen := by rw [Cursor.kind, hcurrent, hclose]
    rw [identifierOrCall, run_here_bind,
      run_bind_of_ok _ (identifier_recognises.complete hname (.mk hkind) trivial),
      run_accept_bind, if_pos hparen, if_pos rfl,
      run_bind_of_ok _ ((expressionsBefore_recognises hsub hbegins rfl (by decide) rfl).complete
        hlist hargs hlast),
      run_expectOneOf_bind _ hcurrent hclose, run_rangeFrom_bind, hrange]
    rfl
  | parenthesised hopen he hclose =>
    rw [hpasses.current_eq, hopen]
    change (parenthesised sub).run file c = _
    have hrange := hpasses.rangeFrom_eq file (by rw [hopen]; rfl)
    obtain ⟨-, hinner⟩ := Cursor.passes_cons_iff.1 hpasses
    obtain ⟨last, hsubrow, hcurrent, rfl⟩ := Cursor.passes_concat hinner
    have hlast : last.kind = .rightParen := by rw [Cursor.kind, hcurrent, hclose]
    rw [parenthesised, run_here_bind, run_advance_bind,
      run_bind_of_ok _ (hsub.complete hsubrow he (by rw [hlast]; rfl)), expect,
      run_expectOneOf_bind _ hcurrent hclose, run_rangeFrom_bind, hrange]
    rfl
  | matrix hopen hrows hclose =>
    rw [hpasses.current_eq, hopen]
    exact matrix_complete hsub hbegins hpasses hopen hrows hclose

include hbegins in
theorem primary_recognises :
    (primary sub).Recognises file (IsPrimary file phrase) (· ≠ .leftParen) where
  sound := primary_sound hsub hbegins
  complete := primary_complete hsub hbegins

end Operands

/-- The kinds of token that an operand starts with, operators in front of it apart. -/
theorem begins_primary {phrase : Phrase Expr} :
    Begins (IsPrimary file phrase) (fun k => startsExpression k ∧ unaryOperator? k = none) := by
  intro ts v hv
  cases hv with
  | integer hkind | float hkind | string hkind | json hkind =>
    exact ⟨_, _, rfl, by rw [hkind]; decide⟩
  | parenthesised hkind | matrix hkind => exact ⟨_, _, rfl, by rw [hkind]; decide⟩
  | name hname =>
    obtain ⟨hkind⟩ := hname
    exact ⟨_, _, rfl, by rw [hkind]; decide⟩
  | call hname =>
    obtain ⟨hkind⟩ := hname
    exact ⟨_, _, rfl, by rw [hkind]; decide⟩

end Parser

end Cqasm
