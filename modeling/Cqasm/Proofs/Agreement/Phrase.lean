import Cqasm.Proofs.Agreement.Program

/-!
# Phrases of rows that are alike

What a row of tokens stands for is told by the kinds and the texts of its tokens, up to the ranges
in the tree (`Likeness.exists_statements`). A phrase need not be taken apart for that: it is read,
reading agrees on rows that are alike, and what is read belongs to the phrase again
(`Likeness.exists_phrase`).
-/

set_option autoImplicit false

namespace Cqasm

open Grammar

theorem exists_append_of_forall₂ {α β : Type} {R : α → β → Prop} {as bs : List α} {cs : List β}
    (h : List.Forall₂ R (as ++ bs) cs) :
    ∃ ds es, cs = ds ++ es ∧ List.Forall₂ R as ds ∧ List.Forall₂ R bs es := by
  induction as generalizing cs with
  | nil => exact ⟨[], cs, rfl, .nil, h⟩
  | cons a as ih =>
    obtain ⟨d, cs, hd, hcs, rfl⟩ := List.forall₂_cons_left_iff.1 h
    obtain ⟨ds, es, rfl, hds, hes⟩ := ih hcs
    exact ⟨d :: ds, es, rfl, .cons hd hds, hes⟩

/-- Tokens that differ in nothing but where they stand. -/
def Token.Alike (a b : Token) : Prop :=
  a.kind = b.kind ∧ a.text = b.text

instance : DecidableRel Token.Alike :=
  fun _ _ => inferInstanceAs (Decidable (_ ∧ _))

namespace Likeness

variable {file file' : String} {ts us : List Token}

/-- Tokens are alike wherever they stand and in whatever file, and ranges make no difference. -/
def anywhere (file file' : String) : Likeness file file' where
  like := Token.Alike
  left := .forget
  right := .forget
  kind_eq h := h.1
  text_eq h := h.2
  location_eq _ := rfl
  through_eq _ _ := rfl

theorem exists_phrase {α : Type} {p : Parser α} {phrase phrase' : Phrase α}
    {stops stops' : Kind → Prop} {R : α → α → Prop} {v : α} (hp : p.Recognises file phrase stops)
    (hp' : p.Recognises file' phrase' stops') (hagree : (anywhere file file').Agree R p p)
    (hstops : stops .eof) (h : phrase ts v) (halike : List.Forall₂ Token.Alike ts us)
    (hus : ∀ token ∈ us, token.kind ≠ .eof) : ∃ w, phrase' us w ∧ R v w := by
  -- Both rows are read as if they were all of a text.
  let last := Token.atEnd .start
  obtain ⟨behind, hpasses, hbehind⟩ :=
    Cursor.exists_passes_of_append (c := ⟨none, ts, last⟩) (List.append_nil ts).symm
  have heof : behind.kind = .eof := by
    rw [Cursor.kind, Cursor.current, hbehind, hpasses.last_eq]
    rfl
  have hrun := hp.complete hpasses h (by rwa [heof])
  have houtcomes := hagree ⟨none, ts, last⟩ ⟨none, us, last⟩ ⟨.none, halike, rfl, rfl⟩
  rw [hrun] at houtcomes
  generalize hrun' : p.run file' ⟨none, us, last⟩ = outcome at houtcomes
  obtain @⟨_, w, _, stop, hvalue, hcursors⟩ | - := houtcomes
  obtain ⟨row, hrow, hphrase⟩ := hp'.sound ⟨rfl, hus⟩ hrun'
  have htokens := hcursors.tokens
  rw [hbehind, List.forall₂_nil_left_iff] at htokens
  obtain rfl : us = row := by
    rw [← List.append_nil row, ← htokens]
    exact hrow.tokens_eq
  exact ⟨w, hphrase, hvalue⟩

/-- An expression is one wherever it stands. -/
theorem exists_expr {e : Expr} (h : IsExpr file ts e) (halike : List.Forall₂ Token.Alike ts us)
    (hus : ∀ token ∈ us, token.kind ≠ .eof) :
    ∃ e', IsExpr file' us e' ∧ e.bare = e'.bare :=
  exists_phrase Parser.expression_recognises Parser.expression_recognises agree_expression rfl h
    halike hus

theorem forall_kind_of_forall₂ (p : Kind → Prop) (halike : List.Forall₂ Token.Alike ts us)
    (h : ∀ token ∈ ts, p token.kind) : ∀ token ∈ us, p token.kind := by
  induction halike with
  | nil => exact fun _ htoken => by cases htoken
  | cons htoken _ ih =>
    obtain ⟨hfirst, hrest⟩ := List.forall_mem_cons.1 h
    exact List.forall_mem_cons.2 ⟨htoken.1 ▸ hfirst, ih hrest⟩

theorem separation_of_forall₂ (halike : List.Forall₂ Token.Alike ts us) (h : Separation ts) :
    Separation us := by
  refine ⟨forall_kind_of_forall₂ (·.isSeparator) halike h.1, ?_⟩
  rintro rfl
  exact h.2 (List.forall₂_nil_right_iff.1 halike)

/-- A qubits clause is one wherever it stands, with the same count. -/
theorem exists_qubits {qubits : Option Expr} (h : IsQubits file ts qubits)
    (halike : List.Forall₂ Token.Alike ts us) (hus : ∀ token ∈ us, token.kind ≠ .eof) :
    ∃ qubits', IsQubits file us qubits' ∧ qubits.map Expr.bare = qubits'.map Expr.bare := by
  cases h with
  | none =>
    rw [List.forall₂_nil_left_iff.1 halike]
    exact ⟨none, .none, rfl⟩
  | @some seps ts keyword e hseps hkeyword he =>
    obtain ⟨seps', rest, rfl, hsepsAlike, hrest⟩ := exists_append_of_forall₂ halike
    obtain ⟨keyword', us, hkeywordAlike, htsAlike, rfl⟩ := List.forall₂_cons_left_iff.1 hrest
    obtain ⟨e', he', hsame⟩ : ∃ e', IsExpr file us e' ∧ e.bare = e'.bare :=
      exists_expr he htsAlike fun token htoken => hus token (by simp [htoken])
    refine ⟨_, .some (separation_of_forall₂ hsepsAlike hseps) ?_ he', congrArg some hsame⟩
    rw [← hkeywordAlike.1, hkeyword]

/-- Statements are the same wherever they stand. -/
theorem exists_statements {statements : List Statement} (h : IsStatements file ts statements)
    (halike : List.Forall₂ Token.Alike ts us) (hus : ∀ token ∈ us, token.kind ≠ .eof) :
    ∃ statements', IsStatements file us statements' ∧
      statements.map Statement.bare = statements'.map Statement.bare := by
  induction h generalizing us with
  | nil =>
    rw [List.forall₂_nil_left_iff.1 halike]
    exact ⟨[], .nil, rfl⟩
  | cons hfirst _ ih =>
    obtain ⟨seps, row, rfl, hseps, hstatement⟩ := hfirst
    obtain ⟨first, rest, rfl, hfirst, hrest⟩ := exists_append_of_forall₂ halike
    obtain ⟨seps', row', rfl, hsepsAlike, hrow⟩ := exists_append_of_forall₂ hfirst
    obtain ⟨s', hstatement', hsame⟩ := exists_phrase Parser.statement_recognises
      Parser.statement_recognises agree_statement rfl hstatement hrow fun token htoken =>
        hus token (by simp [htoken])
    obtain ⟨statements', hstatements, hmap⟩ := ih hrest fun token htoken =>
      hus token (by simp [htoken])
    refine ⟨s' :: statements', .cons ⟨seps', row', rfl, ?_, hstatement'⟩ hstatements, ?_⟩
    · exact separation_of_forall₂ hsepsAlike hseps
    · rw [List.map_cons, List.map_cons, hmap]
      exact congrArg (· :: _) hsame

end Likeness

end Cqasm
