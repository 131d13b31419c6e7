import Cqasm.Proofs.Recognition.Expression
import Cqasm.Reader.Statement

/-!
# Instructions are recognised

Annotations, operands, and instructions under a condition or not (`instruction_recognises`). An
instruction is over in front of any token that none of its parts could begin with or go on with
(`Kind.endsInstruction`).
-/

set_option autoImplicit false

namespace Cqasm

open Grammar

/-- In front of a token of such a kind an instruction is over, no matter which of its parts came
last. -/
def Kind.endsInstruction (kind : Kind) : Bool :=
  kind.endsExpression && !startsExpression kind && kind ≠ .comma && kind ≠ .atSign

namespace Parser

variable {file : String} {c behind : Cursor}

/-! ## Parentheses that may be left out -/

section Optional

variable {α β : Type} {p : Parser α} {phrase : Phrase α}

/-- Something in parentheses, or nothing at all. -/
abbrev InParens (phrase : Phrase α) (f : α → β) (missing : β) : Phrase β :=
  fun ts v => ts = [] ∧ v = missing ∨
    ∃ opening us closing a, ts = opening :: (us ++ [closing]) ∧ opening.kind = .leftParen ∧
      phrase us a ∧ closing.kind = .rightParen ∧ v = f a

theorem inParens_recognises (hp : p.Recognises file phrase (· = .rightParen)) (f : α → β)
    (missing : β) :
    (do
        if ← accept .leftParen then
          let a ← p
          let _ ← expect .rightParen
          return f a
        else return missing : Parser β).Recognises file (InParens phrase f missing)
      (· ≠ .leftParen) where
  sound {c behind v} hc hrun := by
    rw [run_accept_bind] at hrun
    by_cases hkind : c.kind = .leftParen
    · rw [if_pos hkind, if_pos rfl] at hrun
      obtain ⟨a, middle, ha, hrun⟩ := run_bind_eq_ok.1 hrun
      obtain ⟨hclose, hrun⟩ := run_expectOneOf_bind_eq_ok.1 hrun
      obtain ⟨rfl, rfl⟩ := run_pure_eq_ok.1 hrun
      have hopening := Cursor.passes_current hc hkind (by decide)
      have hc := hopening.ended hc
      obtain ⟨us, hus, ha⟩ := hp.sound hc ha
      have hclosing := Cursor.passes_current (hus.ended hc) hclose (by decide)
      exact ⟨_, hopening.trans (hus.trans hclosing),
        .inr ⟨_, us, _, a, rfl, hkind, ha, hclose, rfl⟩⟩
    · rw [if_neg hkind, if_neg (by decide)] at hrun
      obtain ⟨rfl, rfl⟩ := run_pure_eq_ok.1 hrun
      exact ⟨[], c.passes_nil, .inl ⟨rfl, rfl⟩⟩
  complete {c behind ts v} hpasses hv hstop := by
    rw [run_accept_bind]
    rcases hv with ⟨rfl, rfl⟩ | ⟨opening, us, closing, a, rfl, hopen, ha, hclose, rfl⟩
    · obtain rfl := hpasses.eq_of_nil
      rw [if_neg hstop, if_neg (by decide)]
      rfl
    · have hkind : c.kind = .leftParen := hpasses.kind_eq.trans hopen
      obtain ⟨-, hinner⟩ := Cursor.passes_cons_iff.1 hpasses
      obtain ⟨last, hus, hcurrent, rfl⟩ := Cursor.passes_concat hinner
      have hlast : last.kind = .rightParen := by rw [Cursor.kind, hcurrent, hclose]
      rw [if_pos hkind, if_pos rfl, run_bind_of_ok _ (hp.complete hus ha hlast), expect,
        run_expectOneOf_bind _ hcurrent hclose]
      rfl

end Optional

/-! ## Annotations -/

theorem listed_recognises :
    (expressionsBefore .rightParen expression).Recognises file (Listed (IsExpr file))
      (· = .rightParen) :=
  expressionsBefore_recognises expression_recognises (begins_expression _) rfl (by decide) rfl

/-- Without parentheses there are no operands. -/
theorem optionalOperands_recognises :
    optionalOperands.Recognises file (InParens (Listed (IsExpr file)) id []) (· ≠ .leftParen) :=
  inParens_recognises listed_recognises id []

/-- The two forms of an annotation as one, with parentheses that may be left out. -/
theorem isAnnot_iff {sign : Token} {ts : List Token} {v : Annot} :
    IsAnnot file (sign :: ts) v ↔
      ∃ us dot ws xs interface operation operands, ts = us ++ dot :: (ws ++ xs) ∧
        sign.kind = .atSign ∧ IsName file us interface ∧ dot.kind = .dot ∧
        IsName file ws operation ∧ InParens (Listed (IsExpr file)) id [] xs operands ∧
        v = { interface, operation, operands, location := rangeOf file (sign :: ts) } := by
  constructor
  · intro h
    cases h with
    | plain hsign hinterface hdot hoperation =>
      exact ⟨_, _, _, [], _, _, [], by rw [List.append_nil], hsign, hinterface, hdot, hoperation,
        .inl ⟨rfl, rfl⟩, rfl⟩
    | applied hsign hinterface hdot hoperation hopen hoperands hclose =>
      exact ⟨_, _, _, _, _, _, _, rfl, hsign, hinterface, hdot, hoperation,
        .inr ⟨_, _, _, _, rfl, hopen, hoperands, hclose, rfl⟩, rfl⟩
  · rintro ⟨us, dot, ws, xs, interface, operation, operands, rfl, hsign, hinterface, hdot,
      hoperation, hoperands, rfl⟩
    rcases hoperands with ⟨rfl, rfl⟩ | ⟨opening, ys, closing, operands, rfl, hopen, hoperands,
      hclose, rfl⟩
    · rw [List.append_nil]
      exact .plain hsign hinterface hdot hoperation
    · exact .applied hsign hinterface hdot hoperation hopen hoperands hclose

theorem annotTail_recognises {sign : Token} (hsign : sign.kind = .atSign) :
    (annotTail sign).Recognises file (fun ts v => IsAnnot file (sign :: ts) v)
      (· ≠ .leftParen) where
  sound {c behind v} hc hrun := by
    rw [annotTail, run_locationOf_bind] at hrun
    obtain ⟨interface, c₁, hinterface, hrun⟩ := run_bind_eq_ok.1 hrun
    obtain ⟨hdot, hrun⟩ := run_expectOneOf_bind_eq_ok.1 hrun
    obtain ⟨operation, c₂, hoperation, hrun⟩ := run_bind_eq_ok.1 hrun
    obtain ⟨operands, c₃, hoperands, hrun⟩ := run_bind_eq_ok.1 hrun
    rw [run_rangeFrom_bind] at hrun
    obtain ⟨rfl, rfl⟩ := run_pure_eq_ok.1 hrun
    obtain ⟨us, hus, hinterface⟩ := identifier_recognises.sound hc hinterface
    have hc := hus.ended hc
    have hdotRow := Cursor.passes_current hc hdot (by decide)
    have hc := hdotRow.ended hc
    obtain ⟨ws, hws, hoperation⟩ := identifier_recognises.sound hc hoperation
    obtain ⟨xs, hxs, hoperands⟩ := optionalOperands_recognises.sound (hws.ended hc) hoperands
    have hrow := hus.trans (hdotRow.trans (hws.trans hxs))
    refine ⟨_, hrow, isAnnot_iff.2 ⟨us, c₁.current, ws, xs, interface, operation, operands, rfl,
      hsign, hinterface, hdot, hoperation, hoperands, ?_⟩⟩
    obtain ⟨hname⟩ := hinterface
    rw [hrow.rangeFrom_behind file (lastSolid?_isSome _ (by rw [hname]; rfl))]
  complete {c behind ts v} hpasses hv hstop := by
    obtain ⟨us, dot, ws, xs, interface, operation, operands, rfl, -, hinterface, hdot,
      hoperation, hoperands, rfl⟩ := isAnnot_iff.1 hv
    obtain ⟨c₁, hus, hrest⟩ := Cursor.passes_append_iff.1 hpasses
    obtain ⟨-, hrest'⟩ := Cursor.passes_cons_iff.1 hrest
    obtain ⟨c₂, hws, hxs⟩ := Cursor.passes_append_iff.1 hrest'
    have hrange : behind.rangeFrom file (sign.location file) =
        rangeOf file (sign :: (us ++ dot :: (ws ++ xs))) := by
      obtain ⟨hname⟩ := hinterface
      exact hpasses.rangeFrom_behind file (lastSolid?_isSome _ (by rw [hname]; rfl))
    rw [annotTail, run_locationOf_bind,
      run_bind_of_ok _ (identifier_recognises.complete hus hinterface trivial), expect,
      run_expectOneOf_bind _ hrest.current_eq hdot,
      run_bind_of_ok _ (identifier_recognises.complete hws hoperation trivial),
      run_bind_of_ok _ (optionalOperands_recognises.complete hxs hoperands hstop),
      run_rangeFrom_bind, hrange]
    rfl

theorem begins_annot : Begins (IsAnnot file) (· = .atSign) := by
  intro ts v hv
  cases hv with
  | plain hsign | applied hsign => exact ⟨_, _, rfl, hsign⟩

/-- Annotations are read for as long as there is another `@`. -/
theorem annotations_recognises :
    annotations.Recognises file (Many (IsAnnot file)) (fun k => k ≠ .leftParen ∧ k ≠ .atSign) := by
  let starts : Kind → Option Unit := fun k => if k = .atSign then some () else none
  have hstarts {k : Kind} (h : starts k ≠ none) : k = .atSign := by simpa [starts] using h
  have hmany : annotations.Recognises file
      (Many (Tagged starts fun _ token ts v => IsAnnot file (token :: ts) v))
      (fun k => k ≠ .leftParen ∧ starts k = none) := by
    refine many_recognises ?_ ?_
    · intro _ token htag
      exact annotTail_recognises (hstarts fun hnone => by cases htag.symm.trans hnone)
    · intro k hk
      rw [hstarts hk]
      decide
  refine (hmany.mono ?_).congr ?_
  · rintro k ⟨hparen, hsign⟩
    exact ⟨hparen, if_neg hsign⟩
  · intro ts vs
    constructor
    · intro h
      refine h.mono ?_
      rintro us v ⟨-, hv⟩
      exact hv
    · intro h
      refine h.mono ?_
      intro us v hv
      obtain ⟨token, ws, rfl, hsign⟩ := begins_annot hv
      exact .mk (if_pos hsign) hv

/-- In front of the annotations of a statement, and of what follows if there are none, its last part
is over. -/
theorem annotations_stop {ts : List Token} {annots : List Annot} (hpasses : c.Passes ts behind)
    (h : Many (IsAnnot file) ts annots) (hstop : behind.kind.endsStatement) :
    c.kind.endsExpression ∧ c.kind ≠ .comma ∧ c.kind ≠ .leftParen := by
  have hends : ∀ k : Kind, k.endsStatement →
      k.endsExpression ∧ k ≠ .comma ∧ k ≠ .leftParen := by decide
  have hfirst : Begins (IsAnnot file)
      (fun k => k.endsExpression ∧ k ≠ .comma ∧ k ≠ .leftParen) := begins_annot.mono (by decide)
  exact hpasses.kind_of_head (fun k => k.endsExpression ∧ k ≠ .comma ∧ k ≠ .leftParen)
    (h.head hfirst) (hends _ hstop)

theorem annotations_complete {ts : List Token} {annots : List Annot} (hpasses : c.Passes ts behind)
    (h : Many (IsAnnot file) ts annots) (hstop : behind.kind.endsStatement) :
    annotations.run file c = .ok annots behind := by
  have hends : ∀ k : Kind, k.endsStatement → k ≠ .leftParen ∧ k ≠ .atSign := by decide
  exact annotations_recognises.complete hpasses h (hends _ hstop)

/-! ## Instructions -/

/-- The operands behind a condition are a list, whose first comma sets it off. -/
theorem operandsAfterComma_recognises :
    operandsAfterComma.Recognises file (Many (Behind .comma (IsExpr file)))
      (fun k => k.endsExpression ∧ k ≠ .comma) where
  sound {c behind v} hc hrun := by
    rw [operandsAfterComma, run_accept_bind] at hrun
    by_cases hkind : c.kind = .comma
    · rw [if_pos hkind, if_pos rfl] at hrun
      have hcomma := Cursor.passes_current hc hkind (by decide)
      obtain ⟨ts, hts, hlist⟩ :=
        (expressionList_recognises expression_recognises).sound (hcomma.ended hc) hrun
      obtain ⟨hfirst, hrest⟩ := hlist
      have hall := Many.cons (Behind.mk hkind hfirst) hrest
      exact ⟨_, hcomma.trans hts, hall⟩
    · rw [if_neg hkind, if_neg (by decide)] at hrun
      obtain ⟨rfl, rfl⟩ := run_pure_eq_ok.1 hrun
      exact ⟨[], c.passes_nil, .nil⟩
  complete {c behind ts v} hpasses hv hstop := by
    rw [operandsAfterComma, run_accept_bind]
    cases hv with
    | nil =>
      obtain rfl := hpasses.eq_of_nil
      rw [if_neg hstop.2, if_neg (by decide)]
      rfl
    | cons hfirst hrest =>
      obtain ⟨hmark, hfirst⟩ := hfirst
      obtain ⟨-, hlist⟩ := Cursor.passes_cons_iff.1 hpasses
      rw [if_pos (hpasses.kind_eq.trans hmark), if_pos rfl]
      exact (expressionList_recognises expression_recognises).complete hlist (.mk hfirst hrest)
        hstop

/-- Operands are looked for only where an expression starts. -/
theorem plainOperands_recognises :
    plainOperands.Recognises file (Listed (IsExpr file))
      (fun k => (k.endsExpression ∧ k ≠ .comma) ∧ startsExpression k = false) where
  sound {c behind v} hc hrun := by
    rw [plainOperands, run_current_bind] at hrun
    by_cases hkind : startsExpression c.current.kind
    · rw [if_pos hkind] at hrun
      obtain ⟨ts, hts, hlist⟩ := (expressionList_recognises expression_recognises).sound hc hrun
      exact ⟨ts, hts, .some hlist⟩
    · rw [if_neg hkind] at hrun
      obtain ⟨rfl, rfl⟩ := run_pure_eq_ok.1 hrun
      exact ⟨[], c.passes_nil, .nil⟩
  complete {c behind ts v} hpasses hv hstop := by
    rw [plainOperands, run_current_bind]
    cases hv with
    | nil =>
      obtain rfl := hpasses.eq_of_nil
      rw [if_neg (by rw [show startsExpression behind.current.kind = false from hstop.2]; decide)]
      rfl
    | some hlist =>
      have hkind : startsExpression c.current.kind := by
        obtain ⟨token, us, rfl, hfirst⟩ := (begins_expression _).separatedBy hlist
        rw [hpasses.current_eq]
        exact hfirst
      rw [if_pos hkind]
      exact (expressionList_recognises expression_recognises).complete hpasses hlist hstop.1

/-- An instruction starts with its name or with the mark of a condition. -/
theorem begins_instruction :
    Begins (IsInstruction file) (fun k => k = .identifier ∨ k = .conditionPrefix) := by
  intro ts v hv
  cases hv with
  | plain hname =>
    obtain ⟨hkind⟩ := hname
    exact ⟨_, _, rfl, .inl hkind⟩
  | conditional hmark => exact ⟨_, _, rfl, .inr hmark⟩

/-- With a condition every operand has a comma in front; without, the first has none. -/
theorem instruction_sound {v : Instruction} (hc : c.Ended)
    (hrun : instruction.run file c = .ok v behind) :
    ∃ ts, c.Passes ts behind ∧ IsInstruction file ts v := by
  rw [instruction, run_here_bind, run_accept_bind] at hrun
  by_cases hkind : c.kind = .conditionPrefix
  · rw [if_pos hkind, if_pos rfl, conditionalInstruction] at hrun
    obtain ⟨name, c₁, hname, hrun⟩ := run_bind_eq_ok.1 hrun
    obtain ⟨condition, c₂, hcondition, hrun⟩ := run_bind_eq_ok.1 hrun
    obtain ⟨operands, c₃, hoperands, hrun⟩ := run_bind_eq_ok.1 hrun
    obtain ⟨annots, c₄, hannots, hrun⟩ := run_bind_eq_ok.1 hrun
    rw [run_rangeFrom_bind] at hrun
    obtain ⟨rfl, rfl⟩ := run_pure_eq_ok.1 hrun
    have hmark := Cursor.passes_current hc hkind (by decide)
    have hc := hmark.ended hc
    obtain ⟨ts, hts, hname⟩ := identifier_recognises.sound hc hname
    have hc := hts.ended hc
    obtain ⟨us, hus, hcondition⟩ := expression_recognises.sound hc hcondition
    have hc := hus.ended hc
    obtain ⟨vs, hvs, hoperands⟩ := operandsAfterComma_recognises.sound hc hoperands
    obtain ⟨ws, hws, hannots⟩ := annotations_recognises.sound (hvs.ended hc) hannots
    have hrow := hmark.trans (hts.trans (hus.trans (hvs.trans hws)))
    refine ⟨_, hrow, ?_⟩
    rw [List.singleton_append,
      hrow.rangeFrom_eq file (by rw [show c.current.kind = _ from hkind]; rfl)]
    exact .conditional hkind hname hcondition hoperands hannots
  · rw [if_neg hkind, if_neg (by decide), plainInstruction] at hrun
    obtain ⟨name, c₁, hname, hrun⟩ := run_bind_eq_ok.1 hrun
    obtain ⟨operands, c₂, hoperands, hrun⟩ := run_bind_eq_ok.1 hrun
    obtain ⟨annots, c₃, hannots, hrun⟩ := run_bind_eq_ok.1 hrun
    rw [run_rangeFrom_bind] at hrun
    obtain ⟨rfl, rfl⟩ := run_pure_eq_ok.1 hrun
    obtain ⟨ts, hts, hname⟩ := identifier_recognises.sound hc hname
    have hc := hts.ended hc
    obtain ⟨us, hus, hoperands⟩ := plainOperands_recognises.sound hc hoperands
    obtain ⟨vs, hvs, hannots⟩ := annotations_recognises.sound (hus.ended hc) hannots
    have hrow := hts.trans (hus.trans hvs)
    refine ⟨_, hrow, ?_⟩
    rw [hrow.rangeFrom_of_begins file (· = .identifier) (begins_name.append hname _) (by decide)]
    exact .plain hname hoperands hannots

theorem instruction_complete {ts : List Token} {v : Instruction} (hpasses : c.Passes ts behind)
    (hv : IsInstruction file ts v) (hstop : behind.kind.endsInstruction) :
    instruction.run file c = .ok v behind := by
  have hrange := hpasses.rangeFrom_of_begins file (fun k => k = .identifier ∨ k = .conditionPrefix)
    (begins_instruction hv) (by decide)
  have hends : ∀ k : Kind, k.endsInstruction → (k.endsExpression ∧ k ≠ .comma) ∧
      startsExpression k = false ∧ k ≠ .leftParen ∧ k ≠ .atSign := by decide
  obtain ⟨hlist, hstart, hannot⟩ := hends _ hstop
  have hannotation : Begins (IsAnnot file) (fun k => (k.endsExpression ∧ k ≠ .comma) ∧
      startsExpression k = false) := begins_annot.mono (by decide)
  rw [instruction, run_here_bind, run_accept_bind]
  cases hv with
  | plain hname hoperands hannots =>
    obtain ⟨c₁, hts, hrest⟩ := Cursor.passes_append_iff.1 hpasses
    obtain ⟨c₂, hus, hvs⟩ := Cursor.passes_append_iff.1 hrest
    have hkind : c.kind ≠ .conditionPrefix := by
      obtain ⟨hkind⟩ := hname
      rw [hpasses.kind_eq, hkind]
      decide
    have hc₂ := hvs.kind_of_head (fun k => (k.endsExpression ∧ k ≠ .comma) ∧
      startsExpression k = false) (hannots.head hannotation) ⟨hlist, hstart⟩
    rw [if_neg hkind, if_neg (by decide), plainInstruction,
      run_bind_of_ok _ (identifier_recognises.complete hts hname trivial),
      run_bind_of_ok _ (plainOperands_recognises.complete hus hoperands hc₂),
      run_bind_of_ok _ (annotations_recognises.complete hvs hannots hannot),
      run_rangeFrom_bind, hrange]
    rfl
  | conditional hmark hname hcondition hoperands hannots =>
    have hkind : c.kind = .conditionPrefix := hpasses.kind_eq.trans hmark
    obtain ⟨-, hrest⟩ := Cursor.passes_cons_iff.1 hpasses
    obtain ⟨c₁, hts, hrest⟩ := Cursor.passes_append_iff.1 hrest
    obtain ⟨c₂, hus, hrest⟩ := Cursor.passes_append_iff.1 hrest
    obtain ⟨c₃, hvs, hws⟩ := Cursor.passes_append_iff.1 hrest
    have hc₃ := hws.kind_of_head (fun k => (k.endsExpression ∧ k ≠ .comma) ∧
      startsExpression k = false) (hannots.head hannotation) ⟨hlist, hstart⟩
    have hcomma : Begins (Behind .comma (IsExpr file)) (Kind.endsExpression ·) :=
      begins_behind.mono (by decide)
    have hc₂ := hvs.kind_of_head (Kind.endsExpression ·) (hoperands.head hcomma) hc₃.1.1
    rw [if_pos hkind, if_pos rfl, conditionalInstruction,
      run_bind_of_ok _ (identifier_recognises.complete hts hname trivial),
      run_bind_of_ok _ (expression_recognises.complete hus hcondition hc₂),
      run_bind_of_ok _ (operandsAfterComma_recognises.complete hvs hoperands hc₃.1),
      run_bind_of_ok _ (annotations_recognises.complete hws hannots hannot),
      run_rangeFrom_bind, hrange]
    rfl

theorem instruction_recognises :
    instruction.Recognises file (IsInstruction file) (Kind.endsInstruction ·) where
  sound := instruction_sound
  complete := instruction_complete

end Parser

end Cqasm
