import Cqasm.Proofs.Grammar.Program
import Cqasm.Proofs.Tree.Children
import Cqasm.Proofs.Tree.Placeholders

/-!
# What the grammar describes has no placeholders

The productions never yield a placeholder, and what they put together out of parts without one has
none either. So a row of tokens that is a program stands for a complete tree (`whole_program`).
-/

set_option autoImplicit false

namespace Cqasm

/-- A part of a tree that is no placeholder and has none below it. -/
def Node.Whole (node : Node) : Prop :=
  node.placeholders = []

/-- A part of a tree is whole if nothing is missing in it and in each of its children. The walk that
looks for placeholders need not be known any further. -/
theorem Node.whole_iff {node : Node} :
    node.Whole ↔ node.isPlaceholder = false ∧ ∀ child ∈ node.children, child.Whole :=
  placeholders_eq_nil_iff

/-- Wholeness as a property of every node by itself. -/
theorem Node.Whole.everywhere {node : Node} (h : node.Whole) :
    node.Everywhere fun node => node.isPlaceholder = false := by
  induction node using Node.induction_on_children with
  | h node ih =>
    obtain ⟨hnode, hchildren⟩ := Node.whole_iff.1 h
    exact .mk hnode fun child hchild => ih child hchild (hchildren child hchild)

namespace Grammar

variable {α : Type} {file : String} {phrase : Phrase α} {P : α → Prop}

/-- Whatever a phrase stands for has a property. -/
def Yields (phrase : Phrase α) (P : α → Prop) : Prop :=
  ∀ ⦃ts v⦄, phrase ts v → P v

/-- What holds of one item holds of each in a row of them. -/
theorem Yields.many (h : Yields phrase P) : Yields (Many phrase) (∀ v ∈ ·, P v) := by
  intro ts vs hvs
  induction hvs with
  | nil => simp
  | cons hv _ ih => exact List.forall_mem_cons.2 ⟨h hv, ih⟩

theorem Yields.behind {mark : Kind} (h : Yields phrase P) : Yields (Behind mark phrase) P := by
  rintro _ _ ⟨-, hv⟩
  exact h hv

theorem Yields.separatedBy {mark : Kind} (h : Yields phrase P) :
    Yields (SeparatedBy mark phrase) (∀ v ∈ ·, P v) := by
  rintro _ _ ⟨hv, hvs⟩
  exact List.forall_mem_cons.2 ⟨h hv, h.behind.many hvs⟩

/-- A list that may be empty asks nothing more of its items than one that may not. -/
theorem Yields.listed (h : Yields phrase P) : Yields (Listed phrase) (∀ v ∈ ·, P v) := by
  intro ts vs hvs
  cases hvs with
  | nil => simp
  | some hlist => exact h.separatedBy hlist

end Grammar

/-! ## Parts of a tree -/

namespace Node

/-- What is read field by field is whole field by field. All of the constructors below come down to
this. -/
theorem whole_of_fields {node : Node} (hkind : node.kind.isPlaceholder = false)
    (h : ∀ field ∈ node.fields, ∀ child ∈ field.nodes, child.Whole) : node.Whole := by
  rw [whole_iff]
  refine ⟨hkind, fun child hchild => ?_⟩
  obtain ⟨field, hfield, hnodes⟩ := List.mem_flatMap.1 hchild
  exact h field hfield child hnodes

theorem whole_identifier (id : Identifier) : (Node.expr (.identifier id)).Whole :=
  whole_of_fields rfl (by simp [fields, Expr.fields])

/-- Parentheses change the range of an expression, and ranges do not matter here. -/
theorem whole_withLocation {e : Expr} (location : Location) :
    (Node.expr (e.withLocation location)).Whole ↔ (Node.expr e).Whole := by
  rw [whole_iff, whole_iff]
  cases e <;> rfl

end Node

/-- The expressions without a placeholder. -/
abbrev Expr.Whole (e : Expr) : Prop :=
  (Node.expr e).Whole

namespace Field

theorem whole_exprs {name : String} {es : List Expr} (h : ∀ e ∈ es, e.Whole) :
    ∀ child ∈ (exprs name es).nodes, child.Whole :=
  List.forall_mem_map.2 h

theorem whole_identifiers {name : String} {ids : List Identifier} :
    ∀ child ∈ (identifiers name ids).nodes, child.Whole :=
  List.forall_mem_map.2 fun id _ => Node.whole_identifier id

theorem whole_annotations {annots : List Annot} (h : ∀ a ∈ annots, (Node.annot a).Whole) :
    ∀ child ∈ (annotations annots).nodes, child.Whole :=
  List.forall_mem_map.2 h

theorem whole_identifier {name : String} {id : Identifier} :
    ∀ child ∈ (identifier name id).nodes, child.Whole :=
  List.forall_mem_singleton.2 (Node.whole_identifier id)

theorem whole_one {name : String} {node : Node} (h : node.Whole) :
    ∀ child ∈ (one name node).nodes, child.Whole :=
  List.forall_mem_singleton.2 h

/-- A field that need not be there is whole when it is not. -/
theorem whole_optional {name : String} {expr : Option Expr} (h : ∀ e ∈ expr, e.Whole) :
    ∀ field ∈ optional name expr, ∀ child ∈ field.nodes, child.Whole := by
  cases expr with
  | none => simp [optional]
  | some e => exact List.forall_mem_singleton.2 (whole_one (h e rfl))

end Field

/-! ## Expressions -/

namespace Grammar

variable {file : String} {sub : Phrase Expr}

theorem yields_entry (hsub : Yields sub Expr.Whole) :
    Yields (IsEntry sub) (fun entry => (Node.entry entry).Whole) := by
  intro ts entry h
  cases h with
  | item he =>
    exact Node.whole_of_fields rfl (List.forall_mem_singleton.2 (Field.whole_one (hsub he)))
  | range hfirst _ hlast =>
    refine Node.whole_of_fields rfl ?_
    exact List.forall_mem_cons.2 ⟨Field.whole_one (hsub hfirst),
      List.forall_mem_singleton.2 (Field.whole_one (hsub hlast))⟩

/-- Newlines around an element of a matrix leave no trace in it. -/
theorem yields_element (hsub : Yields sub Expr.Whole) : Yields (IsElement sub) Expr.Whole := by
  rintro _ _ ⟨-, he, -⟩
  exact hsub he

/-- The cases that hold other expressions are calls, parentheses and matrices; everything else is a
leaf. -/
theorem yields_primary (hsub : Yields sub Expr.Whole) :
    Yields (IsPrimary file sub) Expr.Whole := by
  intro ts e h
  cases h with
  | integer | float | string | json =>
    exact Node.whole_of_fields rfl (by simp [Node.fields, Expr.fields])
  | name => exact Node.whole_identifier _
  | call _ _ hargs _ =>
    refine Node.whole_of_fields rfl ?_
    exact List.forall_mem_cons.2 ⟨Field.whole_identifier,
      List.forall_mem_singleton.2 (Field.whole_exprs (hsub.listed hargs))⟩
  | parenthesised _ he _ => exact (Node.whole_withLocation _).2 (hsub he)
  | matrix _ hrows _ =>
    have hrows := (yields_element hsub).separatedBy.separatedBy hrows
    refine Node.whole_of_fields rfl (List.forall_mem_singleton.2 ?_)
    intro child hchild
    -- The field of a matrix is a table, and its nodes are those of all rows.
    obtain ⟨row, hrow, hchild⟩ := List.mem_flatten.1 hchild
    obtain ⟨es, hes, rfl⟩ := List.mem_map.1 hrow
    obtain ⟨e, he, rfl⟩ := List.mem_map.1 hchild
    exact hrows es hes e he

/-- By induction on the row of indices: what is indexed is whole, and so are the entries. -/
theorem yields_postfix (hsub : Yields sub Expr.Whole) :
    Yields (IsPostfix file sub) Expr.Whole := by
  intro ts e h
  induction h with
  | primary he => exact yields_primary hsub he
  | index _ _ hentries _ ih =>
    refine Node.whole_of_fields rfl ?_
    refine List.forall_mem_cons.2 ⟨Field.whole_one ih, List.forall_mem_singleton.2 ?_⟩
    exact List.forall_mem_map.2 ((yields_entry hsub).separatedBy hentries)

theorem yields_unary (hsub : Yields sub Expr.Whole) : Yields (IsUnary file sub) Expr.Whole := by
  intro ts e h
  induction h with
  | indexed he => exact yields_postfix hsub he
  | operator _ _ ih =>
    exact Node.whole_of_fields rfl (List.forall_mem_singleton.2 (Field.whole_one ih))

/-- Powers and chains put operators together in the same way, from two whole operands. -/
theorem whole_binary {operator : BinaryOperator} {lhs rhs : Expr} {location : Location}
    (hlhs : lhs.Whole) (hrhs : rhs.Whole) : (Expr.binary operator lhs rhs location).Whole := by
  refine Node.whole_of_fields rfl ?_
  exact List.forall_mem_cons.2 ⟨Field.whole_one hlhs,
    List.forall_mem_singleton.2 (Field.whole_one hrhs)⟩

theorem yields_power (hsub : Yields sub Expr.Whole) : Yields (IsPower file sub) Expr.Whole := by
  intro ts e h
  induction h with
  | operand he => exact yields_unary hsub he
  | operator hlhs _ _ ih => exact whole_binary (yields_unary hsub hlhs) ih

theorem yields_chain {operators : List (Kind × BinaryOperator)} (hsub : Yields sub Expr.Whole) :
    Yields (IsChain operators sub) Expr.Whole := by
  intro ts e h
  induction h with
  | operand he => exact hsub he
  | operator _ _ hrhs ih => exact whole_binary ih (hsub hrhs)

/-- By induction on the depth, and in each depth over the levels of operators from the tightest one
on. -/
theorem yields_expression (levels : Nat) : Yields (IsExpression file levels) Expr.Whole := by
  induction levels with
  | zero => exact fun _ _ h => h.elim
  | succ levels ih =>
    -- The levels are a fold over a list, so each of them is a chain over the level before.
    unfold IsExpression IsLayered
    induction leftLevels with
    | nil => exact yields_power ih
    | cons _ _ ihLevels => exact yields_chain ihLevels

/-! ## Statements -/

theorem yields_annot : Yields (IsAnnot file) (fun a => (Node.annot a).Whole) := by
  intro ts a h
  have hwhole (interface operation : Identifier) {operands : List Expr} (location : Location)
      (hoperands : ∀ e ∈ operands, e.Whole) :
      (Node.annot { interface, operation, operands, location }).Whole := by
    refine Node.whole_of_fields rfl ?_
    exact List.forall_mem_cons.2 ⟨Field.whole_identifier, List.forall_mem_cons.2
      ⟨Field.whole_identifier, List.forall_mem_singleton.2 (Field.whole_exprs hoperands)⟩⟩
  cases h with
  | plain => exact hwhole _ _ _ (by simp)
  | applied _ _ _ _ _ hoperands _ => exact hwhole _ _ _ ((yields_expression _).listed hoperands)

/-- A condition, operands and annotations are whole, each if it is there. -/
theorem yields_instruction :
    Yields (IsInstruction file) (fun i => (Node.instruction i).Whole) := by
  intro ts i h
  have hwhole (name : Identifier) {condition : Option Expr} {operands : List Expr}
      {annotations : List Annot} (location : Location) (hcondition : ∀ e ∈ condition, e.Whole)
      (hoperands : ∀ e ∈ operands, e.Whole)
      (hannots : ∀ a ∈ annotations, (Node.annot a).Whole) :
      (Node.instruction { name, condition, operands, annotations, location }).Whole := by
    refine Node.whole_of_fields rfl (List.forall_mem_cons.2 ⟨Field.whole_identifier, ?_⟩)
    refine List.forall_mem_append.2 ⟨Field.whole_optional hcondition, ?_⟩
    exact List.forall_mem_cons.2 ⟨Field.whole_exprs hoperands,
      List.forall_mem_singleton.2 (Field.whole_annotations hannots)⟩
  cases h with
  | plain _ hoperands hannots =>
    exact hwhole _ _ (by simp) ((yields_expression _).listed hoperands) (yields_annot.many hannots)
  | conditional _ _ hcondition hoperands hannots =>
    refine hwhole _ _ ?_ ((yields_expression _).behind.many hoperands) (yields_annot.many hannots)
    rintro e ⟨⟩
    exact yields_expression _ hcondition

/-- Instructions in braces are joined by bars and separators, none of which is part of the tree. -/
theorem yields_braced :
    Yields (IsBraced file) (∀ i ∈ ·, (Node.instruction i).Whole) := by
  intro ts items h
  induction h with
  | last hi => exact List.forall_mem_singleton.2 (yields_instruction hi)
  | bar hi _ _ _ ih | separated hi _ _ ih =>
    exact List.forall_mem_cons.2 ⟨yields_instruction hi, ih⟩

theorem whole_bundle {items : List Instruction} {location : Location}
    (h : ∀ i ∈ items, (Node.instruction i).Whole) :
    (Node.statement (.bundle items location)).Whole :=
  Node.whole_of_fields rfl (List.forall_mem_singleton.2 (List.forall_mem_map.2 h))

/-- No production of a statement is for a placeholder. Placeholders come from recovery alone. -/
theorem yields_statement : Yields (IsStatement file) (fun s => (Node.statement s).Whole) := by
  intro ts s h
  cases h with
  | assignment _ _ _ he hannots | mapping _ he _ _ hannots =>
    refine Node.whole_of_fields rfl (List.forall_mem_cons.2 ⟨Field.whole_identifier, ?_⟩)
    exact List.forall_mem_cons.2 ⟨Field.whole_one (yields_expression _ he),
      List.forall_mem_singleton.2 (Field.whole_annotations (yields_annot.many hannots))⟩
  | declaration _ _ _ _ hannots =>
    refine Node.whole_of_fields rfl (List.forall_mem_cons.2 ⟨Field.whole_identifiers, ?_⟩)
    exact List.forall_mem_cons.2 ⟨Field.whole_identifier,
      List.forall_mem_singleton.2 (Field.whole_annotations (yields_annot.many hannots))⟩
  | subcircuit _ _ hannots =>
    refine Node.whole_of_fields rfl (List.forall_mem_cons.2 ⟨Field.whole_identifier, ?_⟩)
    exact List.forall_mem_append.2 ⟨Field.whole_optional (by simp),
      List.forall_mem_singleton.2 (Field.whole_annotations (yields_annot.many hannots))⟩
  | iteratedSubcircuit _ _ _ he _ hannots =>
    refine Node.whole_of_fields rfl (List.forall_mem_cons.2 ⟨Field.whole_identifier, ?_⟩)
    refine List.forall_mem_append.2 ⟨Field.whole_optional ?_,
      List.forall_mem_singleton.2 (Field.whole_annotations (yields_annot.many hannots))⟩
    rintro e ⟨⟩
    exact yields_expression _ he
  | errorModel _ _ hargs hannots =>
    refine Node.whole_of_fields rfl (List.forall_mem_cons.2 ⟨Field.whole_identifier, ?_⟩)
    exact List.forall_mem_cons.2
      ⟨Field.whole_exprs ((yields_expression _).behind.many hargs),
        List.forall_mem_singleton.2 (Field.whole_annotations (yields_annot.many hannots))⟩
  | bundle hitems => exact whole_bundle (yields_instruction.separatedBy hitems)
  | bracedBundle _ _ hitems _ _ => exact whole_bundle (yields_braced hitems)

/-- Separators between statements leave no trace, so each statement stands for itself. -/
theorem yields_statements :
    Yields (IsStatements file) (∀ s ∈ ·, (Node.statement s).Whole) := by
  refine Yields.many ?_
  rintro _ s ⟨_, _, -, -, hs⟩
  exact yields_statement hs

theorem yields_qubits : Yields (IsQubits file) (∀ e ∈ ·, e.Whole) := by
  intro ts qubits h
  cases h with
  | none => simp
  | some _ _ he =>
    rintro e ⟨⟩
    exact yields_expression _ he

/-! ## Programs -/

/-- A program is whole if its count of qubits and all its statements are; the version is a leaf. -/
theorem whole_program {version : Version} {qubits : Option Expr} {statements : List Statement}
    {location : Location} (hqubits : ∀ e ∈ qubits, e.Whole)
    (hstatements : ∀ s ∈ statements, (Node.statement s).Whole) :
    (Node.program (.program version qubits statements location)).Whole := by
  refine Node.whole_of_fields rfl (List.forall_mem_cons.2 ⟨Field.whole_one ?_, ?_⟩)
  · exact Node.whole_of_fields rfl (by simp [Node.fields])
  · exact List.forall_mem_append.2 ⟨Field.whole_optional hqubits,
      List.forall_mem_singleton.2 (List.forall_mem_map.2 hstatements)⟩

/-- What the grammar calls a program is a complete tree. -/
theorem yields_program : Yields (IsProgram file) (fun p => (Node.program p).Whole) := by
  rintro _ _ ⟨-, -, -, hqubits, hstatements, -, -⟩
  exact whole_program (yields_qubits hqubits) (yields_statements hstatements)

theorem whole_root {root : Root} (h : (Node.program root.program).Whole) :
    (Node.root root).Whole :=
  Node.whole_of_fields rfl (List.forall_mem_singleton.2 (Field.whole_one h))

end Grammar

end Cqasm
