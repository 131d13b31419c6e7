import Cqasm.Proofs.Recognition.Statement
import Cqasm.Proofs.Session.Patience
import Mathlib.Data.List.DropRight

/-!
# Programs are recognised

Reading a text to its end without a complaint is reading a program of the grammar
(`ofCursor_sound`), and a program of the grammar is read without a complaint (`ofCursor_complete`).
Statements that follow each other are also read one after the other when something else stands
behind them (`readStatements_append`).
-/

set_option autoImplicit false

namespace Cqasm

open Grammar

namespace Parser

variable {α : Type} {p : Parser α} {file : String} {c behind : Cursor} {v : α}

/-! ## Recovery -/

theorem run_statementEnd :
    statementEnd.run file c =
      if c.kind.endsStatement then .ok () c
      else
        .failed { complaint := .expected (.oneOf [.newline, .semicolon]), openBraces := 0 } c := by
  rw [statementEnd, run_current_bind]
  change (if c.kind.endsStatement then pure () else failExpecting _ : Parser Unit).run file c = _
  by_cases hend : c.kind.endsStatement
  · rw [if_pos hend, if_pos hend]
    rfl
  · rw [if_neg hend, if_neg hend]
    rfl

theorem run_statementEnd_bind_eq_ok {f : Unit → Parser α} :
    (statementEnd >>= f).run file c = .ok v behind ↔
      c.kind.endsStatement ∧ (f ()).run file c = .ok v behind := by
  rw [run_bind, run_statementEnd]
  by_cases hend : c.kind.endsStatement
  · simp [hend]
  · simp [hend]

/-- Nothing is passed to see that a statement has ended. -/
theorem run_terminated_eq_ok :
    (terminated p).run file c = .ok v behind ↔
      p.run file c = .ok v behind ∧ behind.kind.endsStatement := by
  rw [terminated, run_bind_eq_ok]
  constructor
  · rintro ⟨a, middle, ha, hrun⟩
    obtain ⟨hend, hrun⟩ := run_statementEnd_bind_eq_ok.1 hrun
    obtain ⟨rfl, rfl⟩ := run_pure_eq_ok.1 hrun
    exact ⟨ha, hend⟩
  · rintro ⟨hrun, hend⟩
    exact ⟨v, behind, hrun, run_statementEnd_bind_eq_ok.2 ⟨hend, rfl⟩⟩

theorem recover_of_ok (placeholder : Location → α) (h : p.run file c = .ok v behind) :
    p.recover placeholder file c = { value := v, error := none, cursor := behind } := by
  rw [recover, h]

/-- Without a complaint recovery had nothing to do. -/
theorem run_of_recover {placeholder : Location → α}
    (h : (p.recover placeholder file c).error = none) :
    p.run file c =
      .ok (p.recover placeholder file c).value (p.recover placeholder file c).cursor := by
  unfold recover at h ⊢
  cases hp : p.run file c with
  | ok value behind => rfl
  | failed failure stuck =>
    rw [hp] at h
    cases h

end Parser

open Cqasm.Parser

variable {file : String} {c middle behind : Cursor} {patience : Patience} {complaints : Nat}

/-! ## Statements -/

namespace Cursor

/-- What ends a statement in front of more of the text is a separator. -/
theorem pastSeparators_of_endsStatement (hc : c.Ended) (hend : c.kind.endsStatement)
    (hne : c.pastSeparators.tokens ≠ []) :
    Separation (c.tokens.takeWhile (·.kind.isSeparator)) := by
  refine ⟨separators_takeWhile _, ?_⟩
  cases h : c.tokens with
  | nil =>
    rw [pastSeparators, h] at hne
    exact absurd rfl hne
  | cons token tokens =>
    have hkind : token.kind.isSeparator := by
      have heof := hc.kind_ne token (by simp [h])
      rw [kind, current_of_cons h] at hend
      cases hkind : token.kind <;> simp_all [Kind.endsStatement, Kind.isSeparator]
    simp [hkind]

/-- What stands behind separators is none. -/
theorem isSeparator_of_pastSeparators {token : Token} {tokens : List Token}
    (h : c.pastSeparators.tokens = token :: tokens) : token.kind.isSeparator = false := by
  have hhead := List.head?_dropWhile_not (fun token : Token => token.kind.isSeparator) c.tokens
  rw [show c.tokens.dropWhile _ = _ from h] at hhead
  simpa using hhead

theorem pastSeparators_pastSeparators (c : Cursor) :
    c.pastSeparators.pastSeparators = c.pastSeparators := by
  simp [pastSeparators, List.dropWhile_idempotent]

end Cursor

/-- A statement starts neither with a separator nor with `qubits`. -/
theorem begins_statement :
    Begins (IsStatement file) (fun k => k.isSeparator = false ∧ k ≠ .qubits) := by
  intro ts v hv
  cases hv with
  | assignment hkind | mapping hkind | declaration hkind | subcircuit hkind
  | iteratedSubcircuit hkind | errorModel hkind | bracedBundle hkind =>
    exact ⟨_, _, rfl, by rw [hkind]; decide⟩
  | bundle hitems =>
    have hends : ∀ k : Kind, k = .identifier ∨ k = .conditionPrefix →
        k.isSeparator = false ∧ k ≠ .qubits := by decide
    exact (begins_instruction.mono hends).separatedBy hitems

/-- Statements that were read without a complaint are statements of the grammar. -/
theorem readStatements_sound (hpatience : patience.Endless) (hc : c.Ended)
    (hend : c.kind.endsStatement)
    (herrors : (readStatements patience file complaints c).errors = []) :
    ∃ ts seps, c.Passes (ts ++ seps) (readStatements patience file complaints c).cursor ∧
      IsStatements file ts (readStatements patience file complaints c).statements ∧
      Separators seps ∧ (readStatements patience file complaints c).cursor.tokens = [] := by
  fun_induction readStatements patience file complaints c with
  | case1 complaints c h =>
    exact ⟨[], _, c.passes_pastSeparators, .nil, Cursor.separators_takeWhile _, h⟩
  | case2 complaints c token tokens h hexhausted =>
    rw [Patience.isExhausted, hpatience] at hexhausted
    cases hexhausted
  | case3 complaints c token tokens h hexhausted read rest ih =>
    obtain ⟨hread, hrest⟩ := List.append_eq_nil_iff.1 herrors
    have hread : read.error = none := by simpa using hread
    obtain ⟨hrun, hstop⟩ := run_terminated_eq_ok.1 (run_of_recover hread)
    have hpast := c.passes_pastSeparators
    have hc' := hpast.ended hc
    obtain ⟨us, hus, hstatement⟩ := statement_recognises.sound hc' hrun
    obtain ⟨ts, seps, hts, hstatements, hseps, hlast⟩ := ih (hus.ended hc') hstop hrest
    have hrow := hpast.trans (hus.trans hts)
    rw [← List.append_assoc, ← List.append_assoc] at hrow
    refine ⟨_, seps, hrow, .cons ⟨_, us, rfl, ?_, hstatement⟩ hstatements, hseps, hlast⟩
    exact Cursor.pastSeparators_of_endsStatement hc hend (by simp [h])

theorem readStatements_of_nil (h : c.pastSeparators.tokens = []) :
    readStatements patience file complaints c =
      { statements := [], errors := [], cursor := c.pastSeparators } := by
  rw [readStatements]
  split
  · rfl
  · next htokens => cases h.symm.trans htokens

theorem readStatements_of_exhausted {token : Token} {tokens : List Token}
    (h : c.pastSeparators.tokens = token :: tokens)
    (hpatience : patience.isExhausted complaints token) :
    readStatements patience file complaints c =
      { statements := [], errors := [], cursor := c.pastSeparators } := by
  rw [readStatements]
  split
  · next htokens => cases h.symm.trans htokens
  · next htokens =>
    cases h.symm.trans htokens
    rw [if_pos hpatience]

theorem readStatements_of_cons {token : Token} {tokens : List Token}
    (h : c.pastSeparators.tokens = token :: tokens)
    (hpatience : patience.isExhausted complaints token = false) :
    readStatements patience file complaints c =
      let read := (terminated statement).recover .erroneous file c.pastSeparators
      let rest := readStatements patience file (complaints + read.error.toList.length) read.cursor
      { rest with
        statements := read.value :: rest.statements
        errors := read.error.toList ++ rest.errors } := by
  rw [readStatements]
  split
  · next htokens => cases h.symm.trans htokens
  · next htokens =>
    cases h.symm.trans htokens
    rw [if_neg (by simp [hpatience])]

theorem readStatements_pastSeparators (c : Cursor) :
    readStatements patience file complaints c.pastSeparators =
      readStatements patience file complaints c := by
  conv_lhs => rw [readStatements, Cursor.pastSeparators_pastSeparators]
  conv_rhs => rw [readStatements]

/-- What separates statements ends the one before. -/
theorem exists_cons_of_separation {seps : List Token} (h : Separation seps) :
    ∃ sep rest, seps = sep :: rest ∧ sep.kind.endsStatement := by
  obtain ⟨hseps, hne⟩ := h
  obtain ⟨sep, rest, rfl⟩ := List.exists_cons_of_ne_nil hne
  exact ⟨sep, rest, rfl, Kind.endsStatement_of_isSeparator (hseps sep List.mem_cons_self)⟩

theorem begins_separated {α : Type} {phrase : Phrase α} :
    Begins (fun tokens v => ∃ seps ts, tokens = seps ++ ts ∧ Separation seps ∧ phrase ts v)
      (Kind.endsStatement ·) := by
  rintro _ _ ⟨seps, us, rfl, hseps, -⟩
  obtain ⟨sep, rest, rfl, hends⟩ := exists_cons_of_separation hseps
  exact ⟨sep, _, rfl, hends⟩

/-- Behind the separators in front of it a statement is at hand. -/
theorem pastSeparators_of_statement {seps ts : List Token} {s : Statement}
    (hpasses : c.Passes (seps ++ ts) behind) (hseps : Separators seps)
    (h : IsStatement file ts s) :
    c.pastSeparators.Passes ts behind ∧ c.pastSeparators.kind ≠ .qubits := by
  obtain ⟨start, hseparators, hts⟩ := Cursor.passes_append_iff.1 hpasses
  obtain ⟨token, us, rfl, hkind, hne⟩ := begins_statement h
  rw [hseparators.pastSeparators_eq hseps (by rw [hts.kind_eq, hkind])]
  exact ⟨hts, by rwa [hts.kind_eq]⟩

/-- Statements that follow each other are read as they are, and what is behind them does not
matter. -/
theorem readStatements_append (hpatience : patience.Endless) {ts : List Token}
    {statements : List Statement} (hpasses : c.Passes ts middle)
    (h : IsStatements file ts statements) (hend : middle.kind.endsStatement) :
    readStatements patience file complaints c =
      let rest := readStatements patience file complaints middle
      { rest with statements := statements ++ rest.statements } := by
  induction h generalizing c with
  | nil =>
    obtain rfl := hpasses.eq_of_nil
    rfl
  | cons hfirst hrest ih =>
    obtain ⟨seps, us, rfl, ⟨hseps, -⟩, hstatement⟩ := hfirst
    obtain ⟨stop, hpasses, hts⟩ := Cursor.passes_append_iff.1 hpasses
    obtain ⟨hus, -⟩ := pastSeparators_of_statement hpasses hseps hstatement
    obtain ⟨token, ws, rfl, -⟩ := begins_statement hstatement
    -- Behind this statement stands the separator in front of the next one, or what ends them all.
    have hstop : stop.kind.endsStatement :=
      hts.kind_of_head (Kind.endsStatement ·) (hrest.head begins_separated) hend
    have hrun := run_terminated_eq_ok.2 ⟨statement_recognises.complete hus hstatement hstop, hstop⟩
    rw [readStatements_of_cons hus.tokens_eq (hpatience _), recover_of_ok _ hrun]
    dsimp only
    rw [Option.toList_none, List.length_nil, Nat.add_zero, ih hts]
    rfl

/-! ## The head of a program -/

/-- A version with its number. -/
abbrev IsVersion (file : String) : Phrase Version :=
  fun ts v => ∃ keyword number, ts = [keyword, number] ∧ keyword.kind = .version ∧
    number.kind = .versionNumber ∧
    v = { items := (Literal.versionNumbers number.text).map .ofNat
          location := rangeOf file [keyword, number] }

/-- A keyword and a number. -/
theorem version_recognises : version.Recognises file (IsVersion file) (fun _ => True) where
  sound {c behind v} hc hrun := by
    rw [version, run_here_bind] at hrun
    obtain ⟨hkeyword, hrun⟩ := run_expectOneOf_bind_eq_ok.1 hrun
    obtain ⟨hnumber, hrun⟩ := run_expectOneOf_bind_eq_ok.1 hrun
    rw [run_rangeFrom_bind] at hrun
    obtain ⟨rfl, rfl⟩ := run_pure_eq_ok.1 hrun
    have hfirst := Cursor.passes_current hc hkeyword (by decide)
    have hsecond := Cursor.passes_current (hfirst.ended hc) hnumber (by decide)
    have hrow := hfirst.trans hsecond
    refine ⟨_, hrow, _, _, rfl, hkeyword, hnumber, ?_⟩
    rw [hrow.rangeFrom_eq file (by rw [show c.current.kind = _ from hkeyword]; rfl)]
    rfl
  complete {c behind ts v} hpasses hv _ := by
    obtain ⟨keyword, number, rfl, hkeyword, hnumber, rfl⟩ := hv
    have hrange := hpasses.rangeFrom_eq file (by rw [hkeyword]; rfl)
    obtain ⟨-, hsecond⟩ := Cursor.passes_cons_iff.1 hpasses
    obtain ⟨-, hnil⟩ := Cursor.passes_cons_iff.1 hsecond
    obtain rfl := hnil.eq_of_nil
    rw [version, run_here_bind, expect, run_expectOneOf_bind _ hpasses.current_eq hkeyword, expect,
      run_expectOneOf_bind _ hsecond.current_eq hnumber, run_rangeFrom_bind, hrange]
    rfl

theorem run_versionEnd_eq_ok {v : List Statement} :
    versionEnd.run file c = .ok v behind ↔ c.kind.endsStatement ∧ [] = v ∧ c = behind := by
  rw [versionEnd, run_statementEnd_bind_eq_ok, run_pure_eq_ok]

/-- What is read of a qubits clause leads to where the statements begin. Without a clause that is
where the version ended: the separators passed in between are passed by the statements, too. -/
theorem readQubits_sound (hc : c.Ended) (hend : c.kind.endsStatement)
    (herror : (readQubits file c.pastSeparators).error = none) :
    ∃ ts middle, c.Passes ts middle ∧ middle.kind.endsStatement ∧
      IsQubits file ts (readQubits file c.pastSeparators).value ∧
      ∀ patience complaints,
        readStatements patience file complaints (readQubits file c.pastSeparators).cursor =
          readStatements patience file complaints middle := by
  unfold readQubits at herror ⊢
  by_cases hkind : c.pastSeparators.kind = .qubits
  · rw [if_pos hkind] at herror ⊢
    obtain ⟨hrun, hstop⟩ := run_terminated_eq_ok.1 (run_of_recover herror)
    generalize (terminated Parser.qubits).recover _ file c.pastSeparators = q at hrun hstop ⊢
    rw [Parser.qubits, run_advance_bind] at hrun
    obtain ⟨e, middle, he, hrun⟩ := run_bind_eq_ok.1 hrun
    obtain ⟨hvalue, rfl⟩ := run_pure_eq_ok.1 hrun
    have hpast := c.passes_pastSeparators
    have hc' := hpast.ended hc
    have hkeyword := Cursor.passes_current hc' hkind (by decide)
    obtain ⟨ts, hts, he⟩ := expression_recognises.sound (hkeyword.ended hc') he
    -- the separators before the clause are there, since its keyword is behind them
    have hne : c.pastSeparators.tokens ≠ [] := by
      rw [hkeyword.tokens_eq]
      exact List.cons_ne_nil _ _
    refine ⟨_, _, hpast.trans (hkeyword.trans hts), hstop, ?_, fun _ _ => rfl⟩
    rw [← hvalue]
    exact .some (Cursor.pastSeparators_of_endsStatement hc hend hne) hkind he
  · rw [if_neg hkind]
    exact ⟨[], c, c.passes_nil, hend, .none, fun _ _ => readStatements_pastSeparators c⟩

theorem readQubits_of_none (hkind : c.kind ≠ .qubits) :
    readQubits file c = { value := none, error := none, cursor := c } := by
  rw [readQubits, if_neg hkind]

/-- A clause that is one by the grammar is read to its end. -/
theorem readQubits_of_some {keyword : Token} {ts : List Token} {e : Expr}
    (hpasses : c.Passes (keyword :: ts) behind) (hkeyword : keyword.kind = .qubits)
    (he : IsExpr file ts e) (hend : behind.kind.endsStatement) :
    readQubits file c = { value := some e, error := none, cursor := behind } := by
  have hends : ∀ k : Kind, k.endsStatement → k.endsExpression := by decide
  obtain ⟨-, hts⟩ := Cursor.passes_cons_iff.1 hpasses
  have hrun : Parser.qubits.run file c = .ok (some e) behind := by
    rw [Parser.qubits, run_advance_bind,
      run_bind_of_ok _ (expression_recognises.complete hts he (hends _ hend))]
    rfl
  rw [readQubits, if_pos (hpasses.kind_eq.trans hkeyword),
    recover_of_ok _ (run_terminated_eq_ok.2 ⟨hrun, hend⟩)]

/-! ## Programs -/

/-- The tokens of a program in front of the end of its text. -/
theorem exists_parts_of_isProgram {tokens : List Token} {last : Token} {program : Program}
    (h : IsProgram file (tokens ++ [last]) program) :
    ∃ before qs ss seps keyword number qubits statements,
      tokens = before ++ keyword :: number :: (qs ++ ss) ++ seps ∧ Separators before ∧
      keyword.kind = .version ∧ number.kind = .versionNumber ∧ IsQubits file qs qubits ∧
      IsStatements file ss statements ∧ Separators seps ∧ last.kind = .eof ∧
      program = .program
        { items := (Literal.versionNumbers number.text).map .ofNat
          location := rangeOf file [keyword, number] }
        qubits statements (rangeOf file (keyword :: number :: (qs ++ ss))) := by
  generalize hrow : tokens ++ [last] = row at h
  obtain @⟨before, qs, ss, seps, keyword, number, last', qubits, statements, hbefore, hkeyword,
    hnumber, hqubits, hstatements, hseps, hlast⟩ := h
  have hsplit : tokens ++ [last] =
      (before ++ keyword :: number :: (qs ++ ss) ++ seps) ++ [last'] := by
    rw [hrow]
    simp
  obtain ⟨htokens, rfl⟩ := List.append_singleton_inj.1 hsplit
  exact ⟨before, qs, ss, seps, keyword, number, qubits, statements, htokens, hbefore, hkeyword,
    hnumber, hqubits, hstatements, hseps, hlast, rfl⟩

namespace Reading

variable {start : Location} {v : Version}

/-- A version at the end of its line is no broken statement. -/
theorem ofVersion_of_endsStatement (hend : c.kind.endsStatement) :
    ofVersion patience file start v c =
      let qubits := readQubits file c.pastSeparators
      let errors := qubits.error.toList
      let body := readStatements patience file errors.length qubits.cursor
      { root := rootOf (.program v qubits.value body.statements (body.cursor.rangeFrom file start))
        errors := errors ++ body.errors
        stop := body.cursor.current } := by
  rw [ofVersion, recover_of_ok _ (run_versionEnd_eq_ok.2 ⟨hend, rfl, rfl⟩)]
  rfl

/-- A reading without complaints is of a program, from behind its version on. -/
theorem ofVersion_sound (hpatience : patience.Endless) (hc : c.Ended)
    (herrors : (ofVersion patience file start v c).errors = []) :
    ∃ qs ss seps behind qubits statements, c.Passes (qs ++ (ss ++ seps)) behind ∧
      IsQubits file qs qubits ∧ IsStatements file ss statements ∧ Separators seps ∧
      behind.tokens = [] ∧ (ofVersion patience file start v c).root =
        rootOf (.program v qubits statements (behind.rangeFrom file start)) := by
  have hend : c.kind.endsStatement := by
    obtain ⟨hhead, -⟩ := List.append_eq_nil_iff.1 herrors
    obtain ⟨hversion, -⟩ := List.append_eq_nil_iff.1 hhead
    exact (run_versionEnd_eq_ok.1 (run_of_recover (by simpa using hversion))).1
  rw [ofVersion_of_endsStatement hend] at herrors ⊢
  dsimp only at herrors ⊢
  obtain ⟨hqubits, hbody⟩ := List.append_eq_nil_iff.1 herrors
  obtain ⟨qs, middle, hqs, hmiddle, hclause, hcontinue⟩ :=
    readQubits_sound hc hend (by simpa using hqubits)
  rw [hqubits, hcontinue] at hbody
  obtain ⟨ss, seps, hss, hstatements, hseps, hlast⟩ :=
    readStatements_sound hpatience (hqs.ended hc) hmiddle hbody
  refine ⟨qs, ss, seps, _, _, _, hqs.trans hss, hclause, hstatements, hseps, hlast, ?_⟩
  rw [hqubits, hcontinue]

/-- A qubits clause and statements behind a version are read as they are, and what is behind them
does not matter as long as no qubits clause comes first. -/
theorem ofVersion_append (hpatience : patience.Endless) {qs ss : List Token}
    {qubits : Option Expr} {statements : List Statement} (hpasses : c.Passes (qs ++ ss) middle)
    (hqubits : IsQubits file qs qubits) (hstatements : IsStatements file ss statements)
    (hend : middle.kind.endsStatement)
    (hnext : qubits = none → statements = [] → middle.pastSeparators.kind ≠ .qubits) :
    ofVersion patience file start v c =
      let rest := readStatements patience file 0 middle
      { root :=
          rootOf (.program v qubits (statements ++ rest.statements)
            (rest.cursor.rangeFrom file start))
        errors := rest.errors
        stop := rest.cursor.current } := by
  obtain ⟨stop, hqs, hss⟩ := Cursor.passes_append_iff.1 hpasses
  have hstop : stop.kind.endsStatement :=
    hss.kind_of_head (Kind.endsStatement ·) (hstatements.head begins_separated) hend
  have hbody : readStatements patience file 0 stop = _ :=
    readStatements_append hpatience hss hstatements hend
  cases hqubits with
  | none =>
    obtain rfl := hqs.eq_of_nil
    -- A clause is looked for behind the separators in front of the first statement.
    have hkind : stop.pastSeparators.kind ≠ .qubits := by
      cases hstatements with
      | nil =>
        obtain rfl := hss.eq_of_nil
        exact hnext rfl rfl
      | cons hfirst _ =>
        obtain ⟨seps, us, rfl, ⟨hseps, -⟩, hstatement⟩ := hfirst
        obtain ⟨last, hrow, -⟩ := Cursor.passes_append_iff.1 hss
        exact (pastSeparators_of_statement hrow hseps hstatement).2
    rw [ofVersion_of_endsStatement hstop, readQubits_of_none hkind]
    dsimp only
    rw [readStatements_pastSeparators, Option.toList_none, List.length_nil, hbody]
    rfl
  | @some seps ts keyword e hseps hkeyword he =>
    obtain ⟨start', hseparators, hts⟩ := Cursor.passes_append_iff.1 hqs
    have hpast := hseparators.pastSeparators_eq hseps.1 (by rw [hts.kind_eq, hkeyword]; rfl)
    have hc : c.kind.endsStatement := by
      obtain ⟨sep, rest, rfl, hends⟩ := exists_cons_of_separation hseps
      rw [hqs.kind_eq]
      exact hends
    rw [ofVersion_of_endsStatement hc, hpast, readQubits_of_some hts hkeyword he hstop]
    dsimp only
    rw [Option.toList_none, List.length_nil, hbody]
    rfl

/-- Reading a text to its end without a complaint reads a program. -/
theorem ofCursor_sound (hpatience : patience.Endless) (hc : c.Ended)
    (herrors : (ofCursor patience file c).errors = []) :
    ∃ program, IsProgram file (c.tokens ++ [c.last]) program ∧
      (ofCursor patience file c).root = rootOf program := by
  have hbefore := c.passes_pastSeparators
  have hc' := hbefore.ended hc
  unfold ofCursor at herrors ⊢
  dsimp only at herrors ⊢
  cases hversion : version.run file c.pastSeparators with
  | failed failure stuck =>
    rw [hversion] at herrors
    cases herrors
  | ok v middle =>
    rw [hversion] at herrors
    obtain ⟨_, hhead, keyword, number, rfl, hkeyword, hnumber, rfl⟩ :=
      version_recognises.sound hc' hversion
    obtain ⟨qs, ss, seps, behind, qubits, statements, hrest, hqubits, hstatements, hseps, hnil,
      hroot⟩ := ofVersion_sound hpatience (hhead.ended hc') herrors
    have hrow := hhead.trans hrest
    rw [List.cons_append, List.singleton_append] at hrow
    have hrange := hrow.rangeFrom_eq file (by rw [hkeyword]; rfl)
    rw [← List.append_assoc, ← List.cons_append,
      rangeOf_append_of_separators file keyword (number :: (qs ++ ss)) hseps] at hrange
    -- The rows that were passed one after the other are the whole text, with its end behind them.
    have htokens : c.tokens ++ [c.last] = c.tokens.takeWhile (·.kind.isSeparator) ++
        keyword :: number :: (qs ++ (ss ++ (seps ++ [c.last]))) := by
      conv_lhs => rw [(hbefore.trans hrow).tokens_eq, hnil]
      simp
    rw [htokens]
    refine ⟨_, .mk (Cursor.separators_takeWhile _) hkeyword hnumber hqubits hstatements hseps
      hc.last_kind, ?_⟩
    rw [← hrange]
    exact hroot

/-- A version is read as it is, and what is behind it is read from there. -/
theorem ofCursor_of_version {before : List Token} {keyword number : Token}
    (hpasses : c.Passes (before ++ [keyword, number]) middle) (hbefore : Separators before)
    (hkeyword : keyword.kind = .version) (hnumber : number.kind = .versionNumber) :
    ofCursor patience file c =
      ofVersion patience file (keyword.location file)
        { items := (Literal.versionNumbers number.text).map .ofNat
          location := rangeOf file [keyword, number] } middle := by
  obtain ⟨start, hseparators, hhead⟩ := Cursor.passes_append_iff.1 hpasses
  have hpast := hseparators.pastSeparators_eq hbefore (by rw [hhead.kind_eq, hkeyword]; rfl)
  have hversion : version.run file start = .ok _ middle :=
    version_recognises.complete hhead ⟨_, _, rfl, hkeyword, hnumber, rfl⟩ trivial
  unfold ofCursor
  dsimp only
  rw [hpast, hversion, hhead.current_eq]

/-- The head and the first statements of a program are read as they are, and what is behind them
does not matter. -/
theorem ofCursor_append (hpatience : patience.Endless) {before qs ss : List Token}
    {keyword number : Token} {qubits : Option Expr} {statements : List Statement}
    (hpasses : c.Passes (before ++ keyword :: number :: (qs ++ ss)) middle)
    (hbefore : Separators before) (hkeyword : keyword.kind = .version)
    (hnumber : number.kind = .versionNumber) (hqubits : IsQubits file qs qubits)
    (hstatements : IsStatements file ss statements) (hend : middle.kind.endsStatement)
    (hnext : qubits = none → statements = [] → middle.pastSeparators.kind ≠ .qubits) :
    ofCursor patience file c =
      let rest := readStatements patience file 0 middle
      { root :=
          rootOf
            (.program
              { items := (Literal.versionNumbers number.text).map .ofNat
                location := rangeOf file [keyword, number] }
              qubits (statements ++ rest.statements)
              (rest.cursor.rangeFrom file (keyword.location file)))
        errors := rest.errors
        stop := rest.cursor.current } := by
  have hsplit : before ++ keyword :: number :: (qs ++ ss) =
      (before ++ [keyword, number]) ++ (qs ++ ss) := by
    simp
  rw [hsplit] at hpasses
  obtain ⟨stop, hhead, hrest⟩ := Cursor.passes_append_iff.1 hpasses
  rw [ofCursor_of_version hhead hbefore hkeyword hnumber]
  exact ofVersion_append hpatience hrest hqubits hstatements hend hnext

/-- A program is read to its end without a complaint. -/
theorem ofCursor_complete (hpatience : patience.Endless) {program : Program}
    (h : IsProgram file (c.tokens ++ [c.last]) program) :
    ofCursor patience file c = { root := rootOf program, errors := [], stop := c.last } := by
  obtain ⟨before, qs, ss, seps, keyword, number, qubits, statements, htokens, hbefore, hkeyword,
    hnumber, hqubits, hstatements, hseps, hlast, rfl⟩ := exists_parts_of_isProgram h
  obtain ⟨middle, hpasses, hmiddle⟩ := Cursor.exists_passes_of_append htokens
  have hkind : middle.last.kind = .eof := by rw [hpasses.last_eq, hlast]
  have hpast : middle.pastSeparators.tokens = [] := by
    rw [Cursor.pastSeparators, hmiddle]
    exact List.dropWhile_eq_nil_iff.2 hseps
  have hcurrent : middle.pastSeparators.current = c.last := by
    rw [Cursor.current, hpast]
    exact hpasses.last_eq
  -- behind the last statement stands a separator or the end of the text
  have hend : middle.kind.endsStatement := by
    cases hs : seps with
    | nil =>
      rw [Cursor.kind, Cursor.current, hmiddle, hs]
      simp [hkind, Kind.endsStatement]
    | cons sep rest =>
      rw [Cursor.kind, Cursor.current_of_cons (hmiddle.trans hs)]
      exact Kind.endsStatement_of_isSeparator (hseps sep (by simp [hs]))
  -- and no second `qubits`, which would be a statement of its own
  have hnext : middle.pastSeparators.kind ≠ .qubits := by
    rw [Cursor.kind, hcurrent, hlast]
    decide
  rw [ofCursor_append hpatience hpasses hbefore hkeyword hnumber hqubits hstatements hend
    fun _ _ => hnext, readStatements_of_nil hpast]
  obtain ⟨start, -, hrow⟩ := Cursor.passes_append_iff.1 hpasses
  have hrange := hrow.rangeFrom_eq file (by rw [hkeyword]; rfl)
  rw [hrow.current_eq] at hrange
  dsimp only
  rw [hcurrent, List.append_nil, ← hrange]
  rfl

end Reading

end Cqasm
