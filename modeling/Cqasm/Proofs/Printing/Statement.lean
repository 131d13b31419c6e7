import Cqasm.Proofs.Number.Exact
import Cqasm.Proofs.Printing.Expression

/-!
# Printed programs are programs of the grammar

Tokens with the words of a statement are that statement by the grammar, up to ranges
(`Style.spells_statement`), and those of a program with the end of the text behind them are that
program (`Style.spells_program`), provided that no expression in it is nested too deep.
-/

set_option autoImplicit false

namespace Cqasm

open Grammar Word

namespace Style

variable {style : Style} {file : String}

/-- An expression on the outermost level, of which there are `maxNesting`. -/
theorem spells_expr {e : Expr} (h : (Node.expr e).Everywhere Node.Printable)
    (hlevels : style.levels e ≤ maxNesting) :
    Spells (IsExpr file) Expr.bare (style.expr e) e :=
  (derives_expr h).expression hlevels

/-- An annotation without operands is written without parentheses. -/
theorem spells_annot {a : Annot} (h : (Node.annot a).Everywhere Node.Printable)
    (hlevels : ∀ e ∈ a.exprs, style.levels e ≤ maxNesting) :
    Spells (IsAnnot file) (Annot.relocate .forget) (style.annot a) a := by
  have hoperands : Spells (Listed (IsExpr file)) (List.map Expr.bare)
      (separated .comma (a.operands.map style.expr)) a.operands := by
    apply spells_listed
    intro e he
    exact spells_expr (h.child (by simp [Node.children_annot, he])) (hlevels e he)
  intro ts hts
  unfold annot at hts
  obtain ⟨sign, rest, rfl, hsign, hrest⟩ := exists_mark hts
  obtain ⟨first, rest, interface, rfl, hinterface, hinterfaceBare, hrest⟩ := exists_name file hrest
  obtain ⟨dot, rest, rfl, hdot, hrest⟩ := exists_mark hrest
  obtain ⟨second, rest, operation, rfl, hoperation, hoperationBare, hrest⟩ :=
    exists_name file hrest
  cases hnone : a.operands with
  | nil =>
    rw [hnone] at hrest
    obtain rfl := List.map_eq_nil_iff.1 hrest
    refine ⟨_, .plain hsign hinterface hdot hoperation, ?_⟩
    simp [Annot.relocate, hinterfaceBare, hoperationBare, hnone, Location.forget]
  | cons e operands =>
    rw [if_neg (by simp [hnone])] at hrest
    obtain ⟨opening, rest, rfl, hopening, hrest⟩ := exists_mark hrest
    obtain ⟨us, closing, rfl, hus, hclosing⟩ := exists_last_mark hrest
    obtain ⟨vs, hvs, hbares⟩ := hoperands us hus
    unfold Expr.bare at hbares
    refine ⟨_, .applied hsign hinterface hdot hoperation hopening hvs hclosing, ?_⟩
    simp only [Annot.relocate, hinterfaceBare, hoperationBare, hbares, Location.forget]

theorem spells_annotations {annotations : List Annot}
    (h : ∀ a ∈ annotations, (Node.annot a).Everywhere Node.Printable)
    (hlevels : ∀ e ∈ annotations.flatMap Annot.exprs, style.levels e ≤ maxNesting) :
    Spells (Many (IsAnnot file)) (List.map (Annot.relocate .forget))
      (annotations.flatMap style.annot) annotations := by
  apply spells_many
  intro a ha
  apply spells_annot (h a ha)
  intro e he
  exact hlevels e (List.mem_flatMap_of_mem ha he)

/-! ## Instructions -/

/-- A condition is written as the first operand of the instruction it stands in front of. -/
theorem spells_instruction {i : Instruction}
    (h : (Node.instruction i).Everywhere Node.Printable)
    (hlevels : ∀ e ∈ i.exprs, style.levels e ≤ maxNesting) :
    Spells (IsInstruction file) (Instruction.relocate .forget) (style.instruction i) i := by
  have hoperands : ∀ e ∈ i.operands, Spells (IsExpr file) Expr.bare (style.expr e) e := by
    intro e he
    apply spells_expr (h.child (by simp [Node.children_instruction, he]))
    exact hlevels e (by simp [Instruction.exprs, he])
  have hannotations : Spells (Many (IsAnnot file)) (List.map (Annot.relocate .forget))
      (i.annotations.flatMap style.annot) i.annotations := by
    apply spells_annotations
    · intro a ha
      exact h.child (by simp [Node.children_instruction, ha])
    · intro e he
      exact hlevels e (List.mem_append_right _ (List.mem_append_right _ he))
  intro ts hts
  unfold instruction at hts
  cases hcondition : i.condition with
  | none =>
    rw [hcondition] at hts
    obtain ⟨token, rest, id, rfl, hid, hname, hrest⟩ := exists_name file hts
    obtain ⟨us, vs, rfl, hus, hvs⟩ := List.map_eq_append_iff.1 hrest
    obtain ⟨operands, hoperands, hbares⟩ := spells_listed hoperands us hus
    obtain ⟨annotations, hannotations, hannotationsBare⟩ := hannotations vs hvs
    unfold Expr.bare at hbares
    refine ⟨_, .plain hid hoperands hannotations, ?_⟩
    simp only [Instruction.relocate, hname, hbares, hannotationsBare, hcondition, Option.map_none,
      Location.forget]
  | some e =>
    rw [hcondition] at hts
    have he : Spells (IsExpr file) Expr.bare (style.expr e) e := by
      apply spells_expr (h.child (by simp [Node.children_instruction, hcondition]))
      exact hlevels e (by simp [Instruction.exprs, hcondition])
    obtain ⟨sign, rest, rfl, hsign, hrest⟩ := List.map_eq_cons_iff.1 hts
    obtain ⟨token, rest, id, rfl, hid, hname, hrest⟩ := exists_name file hrest
    -- the condition is the head of the list of operands, so it has no comma in front of it
    rw [List.map_cons, separated, List.flatMap_map, List.append_assoc] at hrest
    obtain ⟨us, rest, rfl, hus, hrest⟩ := List.map_eq_append_iff.1 hrest
    obtain ⟨vs, ws, rfl, hvs, hws⟩ := List.map_eq_append_iff.1 hrest
    obtain ⟨v, hv, hbare⟩ := he us hus
    obtain ⟨operands, hoperands, hbares⟩ :=
      spells_many (fun e he => spells_behind (hoperands e he)) vs hvs
    obtain ⟨annotations, hannotations, hannotationsBare⟩ := hannotations ws hws
    unfold Expr.bare at hbare hbares
    refine ⟨_, .conditional (Token.kind_of_word hsign) hid hv hoperands hannotations, ?_⟩
    simp only [Instruction.relocate, hname, hbare, hbares, hannotationsBare, hcondition,
      Option.map_some, Location.forget]

/-! ## Statements -/

/-- The names of a declaration, which need no induction of their own. -/
theorem spells_names {names : List Identifier} (hne : names ≠ []) :
    Spells (SeparatedBy .comma (IsName file)) (List.map (Identifier.relocate .forget))
      (separated .comma (names.map fun id => [name id.name])) names :=
  spells_separatedBy hne fun id _ => spells_name file id

/-- A mapping is written either way, and in front its name is no expression. -/
theorem spells_mapping {s : Statement} {target : Identifier} {e : Expr}
    {annotations : List Annot} {location : Location}
    (hs : s = .mapping target e annotations location)
    (he : Spells (IsExpr file) Expr.bare (style.expr e) e)
    (hannotations : Spells (Many (IsAnnot file)) (List.map (Annot.relocate .forget))
      (annotations.flatMap style.annot) annotations) :
    Spells (IsStatement file) (Statement.relocate .forget) (style.statement s) s := by
  subst hs
  intro ts hts
  obtain ⟨keyword, rest, rfl, hkeyword, hrest⟩ := exists_mark hts
  obtain ⟨us, vs, rfl, hus, hvs⟩ := List.map_eq_append_iff.1 hrest
  obtain ⟨as, has, hasBare⟩ := hannotations vs hvs
  -- `q = e` or `e, q`, as the style has it
  split at hus
  · obtain ⟨token, rest, id, rfl, hid, hname, hrest⟩ := exists_name file hus
    obtain ⟨sign, us, rfl, hsign, hus⟩ := exists_mark hrest
    obtain ⟨v, hv, hbare⟩ := he us hus
    unfold Expr.bare at hbare
    have htarget : IsTarget file maxNesting [token] id := .name hid
    refine ⟨_, .assignment hkeyword htarget hsign hv has, ?_⟩
    simp only [Statement.relocate, hname, hbare, hasBare, Location.forget]
  · obtain ⟨ws, rest, rfl, hws, hrest⟩ := List.map_eq_append_iff.1 hus
    obtain ⟨comma, rest, rfl, hcomma, hrest⟩ := exists_mark hrest
    obtain ⟨token, rest, id, rfl, hid, hname, hrest⟩ := exists_name file hrest
    obtain rfl := List.map_eq_nil_iff.1 hrest
    obtain ⟨v, hv, hbare⟩ := he ws hws
    unfold Expr.bare at hbare
    have hmapping := IsStatement.mapping hkeyword hv hcomma hid has
    rw [List.append_assoc]
    refine ⟨_, hmapping, ?_⟩
    simp only [Statement.relocate, hname, hbare, hasBare, Location.forget]

/-- In braces, too, bars stand between the instructions. -/
theorem spells_braced {items : List Instruction} (hne : items ≠ [])
    (h : ∀ i ∈ items, Spells (IsInstruction file) (Instruction.relocate .forget)
      (style.instruction i) i) :
    Spells (IsBraced file) (List.map (Instruction.relocate .forget))
      (separated .pipe (items.map style.instruction)) items := by
  induction items with
  | nil => exact absurd rfl hne
  | cons i items ih =>
    obtain ⟨hi, hitems⟩ := List.forall_mem_cons.1 h
    intro ts hts
    obtain ⟨us, rest, rfl, hus, hrest⟩ := List.map_eq_append_iff.1 hts
    obtain ⟨v, hv, hbare⟩ := hi us hus
    -- the last instruction has no bar behind it
    cases items with
    | nil =>
      obtain rfl := List.map_eq_nil_iff.1 hrest
      rw [List.append_nil]
      exact ⟨[v], .last hv, congrArg ([·]) hbare⟩
    | cons j items =>
      obtain ⟨bar, rest, rfl, hbar, hrest⟩ := exists_mark hrest
      obtain ⟨vs, hvs, hbares⟩ := ih (List.cons_ne_nil _ _) hitems rest hrest
      have hbraced := IsBraced.bar hv hbar (show Separators [] by simp [Separators]) hvs
      refine ⟨v :: vs, hbraced, ?_⟩
      rw [List.map_cons, List.map_cons, hbare, hbares]

/-- A bundle is written with braces or without. -/
theorem spells_bundle {s : Statement} {items : List Instruction} {location : Location}
    (hs : s = .bundle items location) (hne : items ≠ [])
    (hitems : ∀ i ∈ items, Spells (IsInstruction file) (Instruction.relocate .forget)
      (style.instruction i) i) :
    Spells (IsStatement file) (Statement.relocate .forget) (style.statement s) s := by
  subst hs
  intro ts hts
  unfold statement at hts
  dsimp only at hts
  split at hts
  · obtain ⟨opening, rest, rfl, hopening, hrest⟩ := exists_mark hts
    obtain ⟨us, closing, rfl, hus, hclosing⟩ := exists_last_mark hrest
    obtain ⟨vs, hvs, hbares⟩ := spells_braced hne hitems us hus
    have hnone : Separators [] := by simp [Separators]
    have hbundle := IsStatement.bracedBundle hopening hnone hvs hnone hclosing
    refine ⟨_, hbundle, ?_⟩
    simp only [Statement.relocate, hbares, Location.forget]
  · obtain ⟨vs, hvs, hbares⟩ := spells_separatedBy hne hitems ts hts
    refine ⟨_, .bundle hvs, ?_⟩
    simp only [Statement.relocate, hbares, Location.forget]

section

variable {annotations : List Annot} {location : Location}

theorem spells_declaration {s : Statement} {names : List Identifier} {type : Identifier}
    (hs : s = .declaration names type annotations location) (hne : names ≠ [])
    (hannotations : Spells (Many (IsAnnot file)) (List.map (Annot.relocate .forget))
      (annotations.flatMap style.annot) annotations) :
    Spells (IsStatement file) (Statement.relocate .forget) (style.statement s) s := by
  subst hs
  intro ts hts
  obtain ⟨keyword, rest, rfl, hkeyword, hrest⟩ := exists_mark hts
  obtain ⟨us, rest, rfl, hus, hrest⟩ := List.map_eq_append_iff.1 hrest
  obtain ⟨colon, rest, rfl, hcolon, hrest⟩ := exists_mark hrest
  obtain ⟨token, vs, id, rfl, hid, hname, hvs⟩ := exists_name file hrest
  obtain ⟨ids, hids, hidsBare⟩ := spells_names hne us hus
  obtain ⟨as, has, hasBare⟩ := hannotations vs hvs
  have hdeclaration := IsStatement.declaration hkeyword hids hcolon hid has
  refine ⟨_, hdeclaration, ?_⟩
  simp only [Statement.relocate, hname, hidsBare, hasBare, Location.forget]

/-- The parentheses are there exactly when a number of iterations is. -/
theorem spells_subcircuit {s : Statement} {id : Identifier} {iterations : Option Expr}
    (hs : s = .subcircuit id iterations annotations location)
    (hiterations : ∀ e ∈ iterations, Spells (IsExpr file) Expr.bare (style.expr e) e)
    (hannotations : Spells (Many (IsAnnot file)) (List.map (Annot.relocate .forget))
      (annotations.flatMap style.annot) annotations) :
    Spells (IsStatement file) (Statement.relocate .forget) (style.statement s) s := by
  subst hs
  intro ts hts
  obtain ⟨dot, rest, rfl, hdot, hrest⟩ := exists_mark hts
  obtain ⟨token, rest, id', rfl, hid, hname, hrest⟩ := exists_name file hrest
  obtain ⟨us, vs, rfl, hus, hvs⟩ := List.map_eq_append_iff.1 hrest
  obtain ⟨as, has, hasBare⟩ := hannotations vs hvs
  cases iterations with
  | none =>
    obtain rfl := List.map_eq_nil_iff.1 hus
    have hsubcircuit := IsStatement.subcircuit hdot hid has
    refine ⟨_, hsubcircuit, ?_⟩
    simp only [Statement.relocate, hname, hasBare, Option.map_none, Location.forget]
  | some e =>
    obtain ⟨opening, rest, rfl, hopening, hrest⟩ := exists_mark hus
    obtain ⟨ws, closing, rfl, hws, hclosing⟩ := exists_last_mark hrest
    obtain ⟨v, hv, hbare⟩ := hiterations e rfl ws hws
    unfold Expr.bare at hbare
    have hsubcircuit := IsStatement.iteratedSubcircuit hdot hid hopening hv hclosing has
    rw [List.cons_append, List.append_assoc]
    refine ⟨_, hsubcircuit, ?_⟩
    simp only [Statement.relocate, hname, hbare, hasBare, Option.map_some, Location.forget]

theorem spells_errorModel {s : Statement} {id : Identifier} {args : List Expr}
    (hs : s = .errorModel id args annotations location)
    (hargs : ∀ e ∈ args, Spells (IsExpr file) Expr.bare (style.expr e) e)
    (hannotations : Spells (Many (IsAnnot file)) (List.map (Annot.relocate .forget))
      (annotations.flatMap style.annot) annotations) :
    Spells (IsStatement file) (Statement.relocate .forget) (style.statement s) s := by
  subst hs
  intro ts hts
  obtain ⟨keyword, rest, rfl, hkeyword, hrest⟩ := exists_mark hts
  obtain ⟨token, rest, id', rfl, hid, hname, hrest⟩ := exists_name file hrest
  obtain ⟨us, vs, rfl, hus, hvs⟩ := List.map_eq_append_iff.1 hrest
  obtain ⟨es, hes, hesBare⟩ := spells_many (fun e he => spells_behind (hargs e he)) us hus
  obtain ⟨as, has, hasBare⟩ := hannotations vs hvs
  unfold Expr.bare at hesBare
  have herrorModel := IsStatement.errorModel hkeyword hid hes has
  refine ⟨_, herrorModel, ?_⟩
  simp only [Statement.relocate, hname, hesBare, hasBare, Location.forget]

end

/-- One case for each constructor; what is broken is not printable. -/
theorem spells_statement {s : Statement} (h : (Node.statement s).Everywhere Node.Printable)
    (hlevels : ∀ e ∈ s.exprs, style.levels e ≤ maxNesting) :
    Spells (IsStatement file) (Statement.relocate .forget) (style.statement s) s := by
  have hexpr (e : Expr) (hnode : Node.expr e ∈ (Node.statement s).children) (he : e ∈ s.exprs) :
      Spells (IsExpr file) Expr.bare (style.expr e) e :=
    spells_expr (h.child hnode) (hlevels e he)
  have hannots (annotations : List Annot)
      (hnodes : ∀ a ∈ annotations, Node.annot a ∈ (Node.statement s).children)
      (hes : ∀ e ∈ annotations.flatMap Annot.exprs, e ∈ s.exprs) :
      Spells (Many (IsAnnot file)) (List.map (Annot.relocate .forget))
        (annotations.flatMap style.annot) annotations := by
    apply spells_annotations
    · intro a ha
      exact h.child (hnodes a ha)
    · intro e he
      exact hlevels e (hes e he)
  -- What is inside was printable and not too deep before, whichever statement it is part of.
  cases s with
  | mapping target e annotations location =>
    apply spells_mapping rfl
    · exact hexpr e (by simp [Node.children_mapping]) List.mem_cons_self
    · apply hannots
      · simp [Node.children_mapping]
      · intro e he
        exact List.mem_cons_of_mem _ he
  | declaration names type annotations location =>
    apply spells_declaration rfl h.here
    apply hannots
    · simp [Node.children_declaration]
    · exact fun _ he => he
  | subcircuit id iterations annotations location =>
    apply spells_subcircuit rfl
    · rintro e rfl
      exact hexpr e (by simp [Node.children_subcircuit])
        (List.mem_append_left _ (List.mem_singleton.2 rfl))
    · apply hannots
      · simp [Node.children_subcircuit]
      · intro e he
        exact List.mem_append_right _ he
  | errorModel id args annotations location =>
    apply spells_errorModel rfl
    · intro e he
      exact hexpr e (by simp [Node.children_errorModel, he]) (List.mem_append_left _ he)
    · apply hannots
      · simp [Node.children_errorModel]
      · intro e he
        exact List.mem_append_right _ he
  | bundle items location =>
    apply spells_bundle rfl h.here
    intro i hi
    apply spells_instruction (h.child (by simp [Node.children_bundle, hi]))
    intro e he
    exact hlevels e (List.mem_flatMap_of_mem hi he)
  | erroneous => exact h.here.elim

/-! ## Programs -/

theorem separation_of_newline {token : Token} (h : token.word = newline) : Separation [token] := by
  refine ⟨?_, List.cons_ne_nil _ _⟩
  intro t ht
  obtain rfl := List.mem_singleton.1 ht
  rw [Token.kind_of_word h]
  rfl

/-- Each statement is printed on a line of its own, behind the newline that ends the one before. -/
theorem spells_line {s : Statement} (h : (Node.statement s).Everywhere Node.Printable)
    (hlevels : ∀ e ∈ s.exprs, style.levels e ≤ maxNesting) :
    Spells (fun tokens s => ∃ seps ts, tokens = seps ++ ts ∧ Separation seps ∧
        IsStatement file ts s)
      (Statement.relocate .forget) (newline :: style.statement s) s := by
  intro ts hts
  obtain ⟨token, rest, rfl, htoken, hrest⟩ := List.map_eq_cons_iff.1 hts
  obtain ⟨v, hv, hbare⟩ := spells_statement h hlevels rest hrest
  exact ⟨v, ⟨[token], rest, rfl, separation_of_newline htoken, hv⟩, hbare⟩

theorem spells_qubits {qubits : Option Expr}
    (h : ∀ e ∈ qubits, (Node.expr e).Everywhere Node.Printable)
    (hlevels : ∀ e ∈ qubits, style.levels e ≤ maxNesting) :
    Spells (IsQubits file) (Option.map Expr.bare)
      (qubits.elim [] fun e => newline :: mark .qubits :: style.expr e) qubits := by
  intro ts hts
  cases qubits with
  | none =>
    obtain rfl := List.map_eq_nil_iff.1 hts
    exact ⟨none, .none, rfl⟩
  | some e =>
    obtain ⟨token, rest, rfl, htoken, hrest⟩ := List.map_eq_cons_iff.1 hts
    obtain ⟨keyword, us, rfl, hkeyword, hus⟩ := exists_mark hrest
    obtain ⟨v, hv, hbare⟩ := spells_expr (h e rfl) (hlevels e rfl) us hus
    exact ⟨some v, .some (separation_of_newline htoken) hkeyword hv, congrArg some hbare⟩

/-- The numbers of a version are written exactly. -/
theorem versionItems_eq {version : Version} (h : (Node.version version).Printable) :
    (Literal.versionNumbers (dotted (version.items.map VersionItem.value))).map VersionItem.ofNat =
      version.items := by
  obtain ⟨hne, hitems⟩ := h
  have hexact : ∀ item ∈ version.items, VersionItem.ofNat item.value = item := by
    intro item hitem
    obtain ⟨n, hn, rfl⟩ := hitems item hitem
    exact VersionItem.ofNat_eq_whole hn
  rw [versionNumbers_dotted (by simpa using hne), List.map_map]
  exact (List.map_congr_left hexact).trans (List.map_id _)

/-- Tokens with the words of a program, and the end of the text behind them, are the program. -/
theorem spells_program {p : Program} (h : (Node.program p).Everywhere Node.Printable)
    (hlevels : ∀ e ∈ p.exprs, style.levels e ≤ maxNesting) {ts : List Token}
    (hts : ts.map Token.word = style.program p) {last : Token} (hlast : last.kind = .eof) :
    ∃ p', IsProgram file (ts ++ [last]) p' ∧ p'.bare = p.bare := by
  cases hp : p with
  | erroneous =>
    subst hp
    exact h.here.elim
  | program version qubits statements location =>
    subst hp
    have hversion := (h.child (show Node.version version ∈ _ by simp [Node.children_program])).here
    have hqubits : Spells (IsQubits file) (Option.map Expr.bare)
        (qubits.elim [] fun e => newline :: mark .qubits :: style.expr e) qubits := by
      apply spells_qubits
      · intro e he
        exact h.child (by simp [Node.children_program, Option.mem_def.1 he])
      · intro e he
        exact hlevels e (List.mem_append_left _ (Option.mem_toList.2 he))
    have hstatements : Spells (IsStatements file) (List.map (Statement.relocate .forget))
        (statements.flatMap fun s => newline :: style.statement s) statements := by
      apply spells_many
      intro s hs
      apply spells_line (h.child (by simp [Node.children_program, hs]))
      intro e he
      exact hlevels e (List.mem_append_right _ (List.mem_flatMap_of_mem hs he))
    -- The words are taken off in the order the grammar has them: version, qubits, statements, and
    -- the newline behind the last of them.
    obtain ⟨keyword, rest, rfl, hkeyword, hrest⟩ := exists_mark hts
    obtain ⟨number, rest, rfl, hnumber, hrest⟩ := List.map_eq_cons_iff.1 hrest
    obtain ⟨qs, rest, rfl, hqs, hrest⟩ := List.map_eq_append_iff.1 hrest
    obtain ⟨ss, behind, rfl, hss, hbehind⟩ := List.map_eq_append_iff.1 hrest
    obtain ⟨line, rfl, hline⟩ := List.map_eq_singleton_iff.1 hbehind
    obtain ⟨qubits', hqubits', hqubitsBare⟩ := hqubits qs hqs
    obtain ⟨statements', hstatements', hstatementsBare⟩ := hstatements ss hss
    have hprogram := IsProgram.mk (show Separators [] by simp [Separators]) hkeyword
      (Token.kind_of_word hnumber) hqubits' hstatements' (separation_of_newline hline).1 hlast
    refine ⟨_, by simpa using hprogram, ?_⟩
    unfold Expr.bare at hqubitsBare
    rw [Token.text_of_word hnumber, versionNumber, versionItems_eq hversion]
    simp only [Program.bare, Program.relocate, Version.relocate, hqubitsBare, hstatementsBare,
      Location.forget]

end Style

end Cqasm
