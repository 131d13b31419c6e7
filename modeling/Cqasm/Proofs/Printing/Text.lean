import Cqasm.Proofs.Printing.Scan

/-!
# The words of a printed program

Whatever can be printed is printed as words that may stand in a row (`Style.fit_expr` and its like),
so the tokens of a printed program are the words of the program (`Style.tokens_print`).
-/

set_option autoImplicit false

namespace Cqasm.Style

open Word Lexeme

variable {style : Style}

/-- Parentheses do not keep an operand from standing in a row. -/
theorem fit_operand {e : Expr} (h : Fit (style.expr e)) :
    Fit (if style.wraps e then parenthesised (style.expr e) else style.expr e) := by
  split
  · exact fit_parenthesised h
  · exact h

theorem fit_indexEntry {entry : IndexEntry} (h : ∀ e ∈ entry.parts, Fit (style.expr e)) :
    Fit (style.indexEntry entry) := by
  cases entry with
  | item e =>
    rw [indexEntry]
    exact h e List.mem_cons_self
  | range first last =>
    rw [indexEntry]
    apply fit_append (h first List.mem_cons_self)
    apply fit_cons (plain_mark rfl)
    exact h last (List.mem_cons_of_mem _ List.mem_cons_self)

/-- By induction on the expression, as it is printed: marks and words are put in front or behind. -/
theorem fit_expr {e : Expr} (h : (Node.expr e).Everywhere Node.Printable) :
    Fit (style.expr e) := by
  -- What opens with a bracket is put together from behind: the closing mark first.
  induction e using Expr.induction with
  | integer value =>
    rw [expr]
    exact fit_singleton (plain_integer value)
  | float => exact h.here.elim
  | string value =>
    rw [expr]
    exact fit_singleton (plain_string style.escapes value)
  | json value =>
    rw [expr]
    exact fit_singleton (plain_json h.here)
  | matrix rows location ih =>
    have helement : ∀ row ∈ rows, ∀ e ∈ row, Fit (style.expr e) := by
      intro row hrow e he
      apply ih row hrow e he (h.child _)
      rw [Node.children_matrix]
      exact List.mem_map_of_mem (List.mem_flatten_of_mem hrow he)
    rw [expr]
    apply fit_cons (plain_mark rfl)
    apply fit_append _ (fit_singleton (plain_mark rfl))
    apply fit_separated (plain_mark rfl)
    intro row hrow
    exact fit_separated (plain_mark rfl) (helement row hrow)
  | identifier id =>
    rw [expr]
    exact fit_singleton (plain_name h.here)
  | call function args location ih =>
    rw [expr]
    apply fit_cons (plain_name (h.isName (by simp [Node.children_call])))
    apply fit_parenthesised
    apply fit_separated (plain_mark rfl)
    intro e he
    exact ih e he (h.child (by simp [Node.children_call, he]))
  | index base entries location ihbase ih =>
    rw [expr]
    apply fit_append (fit_operand (ihbase (h.child (by simp [Node.children_index]))))
    apply fit_cons (plain_mark rfl)
    apply fit_append _ (fit_singleton (plain_mark rfl))
    apply fit_separated (plain_mark rfl)
    intro entry hentry
    have hchild := h.child (show Node.entry entry ∈ _ by simp [Node.children_index, hentry])
    apply fit_indexEntry
    intro e he
    exact ih entry hentry e he (hchild.child (by simp [Node.children_entry, he]))
  | unary operator operand location ih =>
    rw [expr]
    apply fit_cons (plain_mark (by cases operator <;> rfl))
    exact fit_operand (ih (h.child List.mem_cons_self))
  | binary operator lhs rhs location ihl ihr =>
    rw [expr]
    apply fit_append (fit_operand (ihl (h.child List.mem_cons_self)))
    apply fit_cons (plain_mark (by cases operator <;> rfl))
    exact fit_operand (ihr (h.child (List.mem_cons_of_mem _ List.mem_cons_self)))
  | erroneous => exact h.here.elim

theorem fit_annot {a : Annot} (h : (Node.annot a).Everywhere Node.Printable) :
    Fit (style.annot a) := by
  unfold annot
  apply fit_cons (plain_mark rfl)
  apply fit_cons (plain_name (h.isName (by simp [Node.children_annot])))
  apply fit_cons (plain_mark rfl)
  apply fit_cons (plain_name (h.isName (by simp [Node.children_annot])))
  split
  · trivial
  · apply fit_parenthesised
    apply fit_separated (plain_mark rfl)
    intro e he
    exact fit_expr (h.child (by simp [Node.children_annot, he]))

theorem fit_annotations {annotations : List Annot}
    (h : ∀ a ∈ annotations, (Node.annot a).Everywhere Node.Printable) :
    Fit (annotations.flatMap style.annot) :=
  fit_flatMap fun a ha => fit_annot (h a ha)

/-- The mark of a condition is the one word that needs what stands behind it, a name. -/
theorem fit_instruction {i : Instruction}
    (h : (Node.instruction i).Everywhere Node.Printable) : Fit (style.instruction i) := by
  have hname := h.isName (show Node.expr (.identifier i.name) ∈ _ by
    simp [Node.children_instruction])
  have hoperands : ∀ e ∈ i.operands, Fit (style.expr e) := by
    intro e he
    exact fit_expr (h.child (by simp [Node.children_instruction, he]))
  have hannotations : Fit (i.annotations.flatMap style.annot) := by
    apply fit_annotations
    intro a ha
    exact h.child (by simp [Node.children_instruction, ha])
  unfold instruction
  split
  · apply fit_cons (plain_name hname)
    exact fit_append (fit_separated (plain_mark rfl) hoperands) hannotations
  · next e hcondition =>
    have he : Fit (style.expr e) :=
      fit_expr (h.child (by simp [Node.children_instruction, hcondition]))
    -- the mark of the condition runs into the name behind it, which `Fit` allows for
    refine ⟨.inr ⟨rfl, i.name.name, _, rfl, hname⟩, ?_⟩
    apply fit_cons (plain_name hname)
    apply fit_append _ hannotations
    exact fit_separated (plain_mark rfl) (List.forall_mem_cons.2 ⟨he, hoperands⟩)

/-- One case for each constructor, as in the printer. -/
theorem fit_statement {s : Statement} (h : (Node.statement s).Everywhere Node.Printable) :
    Fit (style.statement s) := by
  unfold statement
  -- Every statement but a bundle is a mark, some words, and annotations behind them.
  cases s with
  | mapping target e annotations location =>
    have htarget : (name target.name).Plain :=
      plain_name (h.isName (by simp [Node.children_mapping]))
    have he : Fit (style.expr e) := fit_expr (h.child (by simp [Node.children_mapping]))
    apply fit_cons (plain_mark rfl)
    apply fit_append
    · split
      · exact fit_cons htarget (fit_cons (plain_mark rfl) he)
      · exact fit_append he (fit_cons (plain_mark rfl) (fit_singleton htarget))
    · apply fit_annotations
      intro a ha
      exact h.child (by simp [Node.children_mapping, ha])
  | declaration names type annotations location =>
    apply fit_cons (plain_mark rfl)
    apply fit_append
    · apply fit_separated (plain_mark rfl)
      intro id hid
      exact fit_singleton (plain_name (h.isName (by simp [Node.children_declaration, hid])))
    · apply fit_cons (plain_mark rfl)
      apply fit_cons (plain_name (h.isName (by simp [Node.children_declaration])))
      apply fit_annotations
      intro a ha
      exact h.child (by simp [Node.children_declaration, ha])
  | subcircuit id iterations annotations location =>
    apply fit_cons (plain_mark rfl)
    apply fit_cons (plain_name (h.isName (by simp [Node.children_subcircuit])))
    apply fit_append
    · cases iterations with
      | none => trivial
      | some e =>
        exact fit_parenthesised (fit_expr (h.child (by simp [Node.children_subcircuit])))
    · apply fit_annotations
      intro a ha
      exact h.child (by simp [Node.children_subcircuit, ha])
  | errorModel id args annotations location =>
    apply fit_cons (plain_mark rfl)
    apply fit_cons (plain_name (h.isName (by simp [Node.children_errorModel])))
    apply fit_append
    · apply fit_flatMap
      intro e he
      apply fit_cons (plain_mark rfl)
      exact fit_expr (h.child (by simp [Node.children_errorModel, he]))
    · apply fit_annotations
      intro a ha
      exact h.child (by simp [Node.children_errorModel, ha])
  | bundle items location =>
    have hitems : Fit (separated .pipe (items.map style.instruction)) := by
      apply fit_separated (plain_mark rfl)
      intro i hi
      exact fit_instruction (h.child (by simp [Node.children_bundle, hi]))
    dsimp only
    split
    · exact fit_cons (plain_mark rfl) (fit_append hitems (fit_singleton (plain_mark rfl)))
    · exact hitems
  | erroneous => exact h.here.elim

/-! ## Programs -/

theorem fit_lines (style : Style) {qubits : Option Expr} {statements : List Statement}
    (hqubits : ∀ e ∈ qubits, (Node.expr e).Everywhere Node.Printable)
    (hstatements : ∀ s ∈ statements, (Node.statement s).Everywhere Node.Printable) :
    Fit (qubits.elim [] (fun e => newline :: mark .qubits :: style.expr e) ++
      (statements.flatMap (fun s => newline :: style.statement s) ++ [newline])) := by
  have hnewline : newline.Plain := ⟨by decide, nofun⟩
  apply fit_append
  · cases qubits with
    | none => trivial
    | some e => exact fit_cons hnewline (fit_cons (plain_mark rfl) (fit_expr (hqubits e rfl)))
  · apply fit_append _ (fit_singleton hnewline)
    apply fit_flatMap
    intro s hs
    exact fit_cons hnewline (fit_statement (hstatements s hs))

/-- Behind the keyword the number of a version is read as one, and behind that everything is read as
usual. -/
theorem row_program {values : List Nat} {words : List Word} (hvalues : values ≠ [])
    (h : Fit words) : Row false (mark .version :: versionNumber values :: words) :=
  .cons (stands_mark rfl) (.cons (stands_versionNumber hvalues) h.row)

/-- The words of a program are the tokens of its text, and nothing is wrong with its characters. -/
theorem tokens_print {version : Version} {qubits : Option Expr} {statements : List Statement}
    {location : Location}
    (h : (Node.program (.program version qubits statements location)).Everywhere Node.Printable) :
    (TokenStream.ofText
        (style.print (.program version qubits statements location)).toList).tokens.map
          Token.word = style.program (.program version qubits statements location) ∧
      (TokenStream.ofText
        (style.print (.program version qubits statements location)).toList).diagnostics = [] := by
  have hversion := (h.child (show Node.version version ∈ _ by simp [Node.children_program])).here
  have hvalues : version.items.map VersionItem.value ≠ [] := by simpa using hversion.1
  have hqubits : ∀ e ∈ qubits, (Node.expr e).Everywhere Node.Printable := by
    intro e he
    exact h.child (by simp [Node.children_program, Option.mem_def.1 he])
  have hstatements : ∀ s ∈ statements, (Node.statement s).Everywhere Node.Printable := by
    intro s hs
    exact h.child (by simp [Node.children_program, hs])
  have hrow := row_program hvalues (fit_lines style hqubits hstatements)
  unfold print
  exact tokens_of_words (by rw [String.toList_ofList]; exact cut_spaced hrow) hrow.text_eq

end Cqasm.Style
