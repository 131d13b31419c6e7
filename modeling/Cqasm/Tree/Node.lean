import Cqasm.Tree.Basic

/-!
# Nodes: the parts of a tree seen alike

A `Node` is any part of a tree, whatever its type. Its parts are listed field by field
(`Node.fields`) in the order in which they are visited, and its children are the same parts without
the names of the fields. A child is always a smaller term than its parent, which is what every walk
over a tree terminates by.
-/

set_option autoImplicit false

namespace Cqasm

/-- The kinds of node. -/
inductive NodeKind where
  | root
  | program
  | erroneousProgram
  | version
  | mapping
  | declaration
  | subcircuit
  | errorModel
  | bundle
  | erroneousStatement
  | instruction
  | annot
  | integerLiteral
  | floatLiteral
  | stringLiteral
  | jsonLiteral
  | matrixLiteral
  | identifier
  | functionCall
  | index
  | unaryOp
  | binaryOp
  | erroneousExpression
  | indexItem
  | indexRange
  deriving DecidableEq, Repr, Inhabited

namespace NodeKind

/-- Every kind. -/
def all : List NodeKind :=
  [root, program, erroneousProgram, version, mapping, declaration, subcircuit, errorModel, bundle,
    erroneousStatement, instruction, annot, integerLiteral, floatLiteral, stringLiteral,
    jsonLiteral, matrixLiteral, identifier, functionCall, index, unaryOp, binaryOp,
    erroneousExpression, indexItem, indexRange]

/-- The name of a kind. -/
def name : NodeKind → String
  | root => "Root"
  | program => "Program"
  | erroneousProgram => "ErroneousProgram"
  | version => "Version"
  | mapping => "Mapping"
  | declaration => "Variables"
  | subcircuit => "Subcircuit"
  | errorModel => "ErrorModel"
  | bundle => "Bundle"
  | erroneousStatement => "ErroneousStatement"
  | instruction => "Instruction"
  | annot => "Annotation"
  | integerLiteral => "IntegerLiteral"
  | floatLiteral => "FloatLiteral"
  | stringLiteral => "StringLiteral"
  | jsonLiteral => "JsonLiteral"
  | matrixLiteral => "MatrixLiteral"
  | identifier => "Identifier"
  | functionCall => "FunctionCall"
  | index => "Index"
  | unaryOp => "UnaryOp"
  | binaryOp => "BinaryOp"
  | erroneousExpression => "ErroneousExpression"
  | indexItem => "IndexItem"
  | indexRange => "IndexRange"

/-- The kind of a given name. -/
def ofName? (name : String) : Option NodeKind :=
  all.find? (·.name = name)

/-- The kinds of placeholder. -/
def isPlaceholder : NodeKind → Bool
  | erroneousProgram | erroneousStatement | erroneousExpression => true
  | _ => false

/-- There are three kinds of placeholder. -/
theorem isPlaceholder_iff {kind : NodeKind} :
    kind.isPlaceholder ↔
      kind = .erroneousProgram ∨ kind = .erroneousStatement ∨ kind = .erroneousExpression := by
  cases kind <;> simp [isPlaceholder]

end NodeKind

/-- Any part of a tree. -/
inductive Node where
  | root (root : Root)
  | program (program : Program)
  | version (version : Version)
  | statement (statement : Statement)
  | instruction (instruction : Instruction)
  | annot (annot : Annot)
  | expr (expr : Expr)
  | entry (entry : IndexEntry)
  deriving Inhabited

/-- A named field of a node with the nodes it holds. -/
inductive Field where
  | one (name : String) (node : Node)
  | many (name : String) (nodes : List Node)
  /-- A table, row by row. -/
  | table (name : String) (rows : List (List Node))

namespace Field

/-- The nodes a field holds, in order. -/
def nodes : Field → List Node
  | one _ node => [node]
  | many _ nodes => nodes
  | table _ rows => rows.flatten

/-- A name with the place of an element behind it. -/
def numbered (name : String) (nodes : List Node) : List (String × Node) :=
  nodes.zipIdx.map fun (node, i) => (name ++ "[" ++ toString i ++ "]", node)

/-- The nodes a field holds, each under the name of the field and its place in it. -/
def labelled : Field → List (String × Node)
  | one name node => [(name, node)]
  | many name nodes => numbered name nodes
  | table name rows =>
    rows.zipIdx.flatMap fun (row, i) => numbered (name ++ "[" ++ toString i ++ "]") row

theorem map_snd_numbered (name : String) (nodes : List Node) :
    (numbered name nodes).map Prod.snd = nodes := by
  simp only [numbered, List.map_map, Function.comp_def]
  exact List.zipIdx_map_fst 0 nodes

/-- The labels are an addition to the nodes of a field and change nothing about them. -/
theorem map_snd_labelled (field : Field) : field.labelled.map Prod.snd = field.nodes := by
  cases field with
  | one => rfl
  | many name nodes => exact map_snd_numbered name nodes
  | table name rows =>
    simp only [labelled, nodes, List.map_flatMap, map_snd_numbered]
    rw [List.flatMap_def, List.zipIdx_map_fst]

/-- A field that need not be there. -/
def optional (name : String) (expr : Option Expr) : List Field :=
  (expr.map fun e => one name (.expr e)).toList

/-- A field that holds a name. -/
def identifier (name : String) (identifier : Identifier) : Field :=
  one name (.expr (.identifier identifier))

/-- A field that holds names. -/
def identifiers (name : String) (identifiers : List Identifier) : Field :=
  many name (identifiers.map fun i => .expr (.identifier i))

/-- A field that holds expressions. -/
def exprs (name : String) (exprs : List Expr) : Field :=
  many name (exprs.map .expr)

/-- The annotations of a node. -/
def annotations (annotations : List Annot) : Field :=
  many "annotations" (annotations.map .annot)

end Field

namespace Statement

/-- The kind of node that a statement is. -/
def kind : Statement → NodeKind
  | mapping .. => .mapping
  | declaration .. => .declaration
  | subcircuit .. => .subcircuit
  | errorModel .. => .errorModel
  | bundle .. => .bundle
  | erroneous _ => .erroneousStatement

/-- The fields of a statement. -/
def fields : Statement → List Field
  | mapping target expr annotations _ =>
    [.identifier "alias" target, .one "expr" (.expr expr), .annotations annotations]
  | declaration names type annotations _ =>
    [.identifiers "names" names, .identifier "typ" type, .annotations annotations]
  | subcircuit name iterations annotations _ =>
    .identifier "name" name :: Field.optional "iterations" iterations
      ++ [.annotations annotations]
  | errorModel name args annotations _ =>
    [.identifier "name" name, .exprs "args" args, .annotations annotations]
  | bundle items _ => [.many "items" (items.map .instruction)]
  | erroneous _ => []

end Statement

namespace Expr

/-- The kind of node that an expression is. -/
def kind : Expr → NodeKind
  | integer .. => .integerLiteral
  | float .. => .floatLiteral
  | string .. => .stringLiteral
  | json .. => .jsonLiteral
  | matrix .. => .matrixLiteral
  | identifier _ => .identifier
  | call .. => .functionCall
  | index .. => .index
  | unary .. => .unaryOp
  | binary .. => .binaryOp
  | erroneous _ => .erroneousExpression

/-- The fields of an expression. -/
def fields : Expr → List Field
  | matrix rows _ => [.table "rows" (rows.map fun row => row.map .expr)]
  | call function args _ => [.identifier "name" function, .exprs "args" args]
  | index base entries _ => [.one "expr" (.expr base), .many "indices" (entries.map .entry)]
  | unary _ operand _ => [.one "operand" (.expr operand)]
  | binary _ lhs rhs _ => [.one "lhs" (.expr lhs), .one "rhs" (.expr rhs)]
  | _ => []

end Expr

namespace Node

/-- The kind of a node. -/
def kind : Node → NodeKind
  | root _ => .root
  | program (.program ..) => .program
  | program (.erroneous _) => .erroneousProgram
  | version _ => .version
  | statement s => s.kind
  | instruction _ => .instruction
  | annot _ => .annot
  | expr e => e.kind
  | entry (.item ..) => .indexItem
  | entry (.range ..) => .indexRange

/-- The range of a node. -/
def location : Node → Location
  | root r => r.location
  | program p => p.location
  | version v => v.location
  | statement s => s.location
  | instruction i => i.location
  | annot a => a.location
  | expr e => e.location
  | entry e => e.location

/-- The fields of a node that hold nodes, in the order in which they are visited. A field that need
not be there is left out when it is not. -/
def fields : Node → List Field
  | root r => [.one "program" (.program r.program)]
  | program (.program v qubits statements _) =>
    .one "version" (.version v) :: Field.optional "numQubits" qubits
      ++ [.many "statements" (statements.map .statement)]
  | program (.erroneous _) => []
  | version _ => []
  | statement s => s.fields
  | instruction i =>
    .identifier "name" i.name :: Field.optional "condition" i.condition
      ++ [.exprs "operands" i.operands, .annotations i.annotations]
  | annot a =>
    [.identifier "interface" a.interface, .identifier "operation" a.operation,
      .exprs "operands" a.operands]
  | expr e => e.fields
  | entry (.item index _) => [.one "index" (.expr index)]
  | entry (.range first last _) => [.one "first" (.expr first), .one "last" (.expr last)]

/-- The parts of a node in the order in which they are visited. -/
def children (node : Node) : List Node :=
  node.fields.flatMap Field.nodes

/-- Whether a node is a placeholder for something that could not be read. -/
def isPlaceholder (node : Node) : Bool :=
  node.kind.isPlaceholder

/-- Placeholders stand for programs, statements and expressions, and hold nothing but a range. -/
theorem isPlaceholder_iff {node : Node} :
    node.isPlaceholder ↔ ∃ range, node = .program (.erroneous range) ∨
      node = .statement (.erroneous range) ∨ node = .expr (.erroneous range) := by
  rw [isPlaceholder, NodeKind.isPlaceholder_iff]
  constructor
  · intro h
    cases node with
    | program p => cases p <;> simp_all [kind]
    | statement s => cases s <;> simp_all [kind, Statement.kind]
    | expr e => cases e <;> simp_all [kind, Expr.kind]
    | entry e => cases e <;> simp_all [kind]
    | _ => simp_all [kind]
  · rintro ⟨range, rfl | rfl | rfl⟩
    · exact .inl rfl
    · exact .inr (.inl rfl)
    · exact .inr (.inr rfl)

/-- The kind of a node and its range, as one text. -/
def label (node : Node) : String :=
  node.kind.name ++ " " ++ node.location.text

end Node

/-! ## A child is smaller than its parent

Field by field: what a field holds is smaller than the list or the option it was taken from, wrapped
once as a node. -/

namespace Field

theorem sizeOf_of_mem_exprs {name : String} {exprs : List Expr} {child : Node}
    (h : child ∈ (Field.exprs name exprs).nodes) : sizeOf child < 1 + sizeOf exprs := by
  obtain ⟨e, he, rfl⟩ := List.mem_map.1 h
  have := List.sizeOf_lt_of_mem he
  simp only [Node.expr.sizeOf_spec]
  omega

theorem sizeOf_of_mem_annotations {annots : List Annot} {child : Node}
    (h : child ∈ (Field.annotations annots).nodes) : sizeOf child < 1 + sizeOf annots := by
  obtain ⟨a, ha, rfl⟩ := List.mem_map.1 h
  have := List.sizeOf_lt_of_mem ha
  simp only [Node.annot.sizeOf_spec]
  omega

theorem sizeOf_of_mem_identifiers {name : String} {ids : List Identifier} {child : Node}
    (h : child ∈ (Field.identifiers name ids).nodes) : sizeOf child < 2 + sizeOf ids := by
  obtain ⟨i, hi, rfl⟩ := List.mem_map.1 h
  have := List.sizeOf_lt_of_mem hi
  simp only [Node.expr.sizeOf_spec, Expr.identifier.sizeOf_spec]
  omega

theorem sizeOf_of_mem_optional {name : String} {expr : Option Expr} {child : Node}
    (h : child ∈ (Field.optional name expr).flatMap Field.nodes) :
    sizeOf child < 1 + sizeOf expr := by
  cases expr with
  | none => cases h
  | some e =>
    obtain rfl : child = .expr e := by simpa [Field.optional, Field.nodes] using h
    simp only [Node.expr.sizeOf_spec, Option.some.sizeOf_spec]
    omega

end Field

namespace Node

theorem sizeOf_lt_of_mem_expr {e : Expr} {child : Node} (h : child ∈ (expr e).children) :
    sizeOf child < sizeOf (expr e) := by
  -- rows are lists of lists, so an element is smaller than its row and the row than the matrix
  cases e with
  | matrix rows location =>
    simp only [children, fields, Expr.fields, Field.nodes, List.flatMap_cons, List.flatMap_nil,
      List.append_nil, List.mem_flatten, List.mem_map] at h
    obtain ⟨_, ⟨row, hrow, rfl⟩, hc⟩ := h
    obtain ⟨e, he, rfl⟩ := List.mem_map.1 hc
    have := List.sizeOf_lt_of_mem he
    have := List.sizeOf_lt_of_mem hrow
    simp only [Node.expr.sizeOf_spec, Expr.matrix.sizeOf_spec]
    omega
  | call function args location =>
    simp only [children, fields, Expr.fields, List.flatMap_cons, List.flatMap_nil,
      List.append_nil, List.mem_append] at h
    simp only [Node.expr.sizeOf_spec, Expr.call.sizeOf_spec]
    rcases h with h | h
    · simp only [Field.identifier, Field.nodes, List.mem_singleton] at h
      subst h
      cases args <;> simp <;> omega
    · have := Field.sizeOf_of_mem_exprs h
      omega
  | index base entries location =>
    simp only [children, fields, Expr.fields, Field.nodes, List.flatMap_cons, List.flatMap_nil,
      List.append_nil, List.mem_append, List.mem_singleton, List.mem_map] at h
    rcases h with rfl | ⟨entry, hentry, rfl⟩
    · simp; omega
    · have := List.sizeOf_lt_of_mem hentry
      simp; omega
  | unary operator operand location =>
    simp only [children, fields, Expr.fields, Field.nodes, List.flatMap_cons, List.flatMap_nil,
      List.append_nil, List.mem_singleton] at h
    subst h
    simp; omega
  | binary operator lhs rhs location =>
    simp only [children, fields, Expr.fields, Field.nodes, List.flatMap_cons, List.flatMap_nil,
      List.append_nil, List.mem_append, List.mem_singleton] at h
    rcases h with rfl | rfl <;> simp <;> omega
  | _ => cases h

theorem sizeOf_lt_of_mem_statement {s : Statement} {child : Node}
    (h : child ∈ (statement s).children) : sizeOf child < sizeOf (statement s) := by
  -- Annotations come last in each statement that has any, and a name has no size to speak of.
  cases s with
  | mapping target e annots location =>
    simp only [children, fields, Statement.fields, List.flatMap_cons, List.flatMap_nil,
      List.append_nil, List.mem_append] at h
    simp only [Node.statement.sizeOf_spec, Statement.mapping.sizeOf_spec]
    rcases h with h | h | h
    · obtain rfl := List.mem_singleton.1 h
      simp only [Node.expr.sizeOf_spec, Expr.identifier.sizeOf_spec]
      cases annots <;> simp <;> omega
    · obtain rfl := List.mem_singleton.1 h
      simp only [Node.expr.sizeOf_spec]
      omega
    · have := Field.sizeOf_of_mem_annotations h
      omega
  | declaration names type annots location =>
    simp only [children, fields, Statement.fields, List.flatMap_cons, List.flatMap_nil,
      List.append_nil, List.mem_append] at h
    simp only [Node.statement.sizeOf_spec, Statement.declaration.sizeOf_spec]
    rcases h with h | h | h
    · have := Field.sizeOf_of_mem_identifiers h
      cases annots <;> simp <;> omega
    · obtain rfl := List.mem_singleton.1 h
      simp only [Node.expr.sizeOf_spec, Expr.identifier.sizeOf_spec]
      cases annots <;> simp <;> omega
    · have := Field.sizeOf_of_mem_annotations h
      omega
  | subcircuit name iterations annots location =>
    simp only [children, fields, Statement.fields, List.cons_append, List.flatMap_cons,
      List.flatMap_append, List.flatMap_nil, List.append_nil, List.mem_append] at h
    simp only [Node.statement.sizeOf_spec, Statement.subcircuit.sizeOf_spec]
    rcases h with h | h | h
    · obtain rfl := List.mem_singleton.1 h
      simp only [Node.expr.sizeOf_spec, Expr.identifier.sizeOf_spec]
      cases annots <;> simp <;> omega
    · have := Field.sizeOf_of_mem_optional h
      omega
    · have := Field.sizeOf_of_mem_annotations h
      omega
  | errorModel name args annots location =>
    simp only [children, fields, Statement.fields, List.flatMap_cons, List.flatMap_nil,
      List.append_nil, List.mem_append] at h
    simp only [Node.statement.sizeOf_spec, Statement.errorModel.sizeOf_spec]
    rcases h with h | h | h
    · obtain rfl := List.mem_singleton.1 h
      simp only [Node.expr.sizeOf_spec, Expr.identifier.sizeOf_spec]
      cases annots <;> simp <;> omega
    · have := Field.sizeOf_of_mem_exprs h
      omega
    · have := Field.sizeOf_of_mem_annotations h
      omega
  | bundle items location =>
    simp only [children, fields, Statement.fields, Field.nodes, List.flatMap_cons,
      List.flatMap_nil, List.append_nil, List.mem_map] at h
    obtain ⟨i, hi, rfl⟩ := h
    have := List.sizeOf_lt_of_mem hi
    simp only [Node.statement.sizeOf_spec, Statement.bundle.sizeOf_spec,
      Node.instruction.sizeOf_spec]
    omega
  | erroneous => cases h

/-- So functions on trees may call themselves on the children of a node. -/
theorem sizeOf_lt_of_mem_children {child node : Node} (h : child ∈ node.children) :
    sizeOf child < sizeOf node := by
  cases node with
  | root r =>
    obtain rfl : child = .program r.program := by simpa [children, fields, Field.nodes] using h
    cases r
    simp only [Node.root.sizeOf_spec, Node.program.sizeOf_spec, Root.mk.sizeOf_spec]
    omega
  | program p =>
    cases p with
    | erroneous => cases h
    | program v qubits statements location =>
      simp only [children, fields, List.cons_append, List.flatMap_cons, List.flatMap_append,
        List.flatMap_nil, List.append_nil, List.mem_append] at h
      simp only [Node.program.sizeOf_spec, Program.program.sizeOf_spec]
      rcases h with h | h | h
      · obtain rfl := List.mem_singleton.1 h
        simp only [Node.version.sizeOf_spec]
        omega
      · have := Field.sizeOf_of_mem_optional h
        omega
      · obtain ⟨s, hs, rfl⟩ := List.mem_map.1 h
        have := List.sizeOf_lt_of_mem hs
        simp only [Node.statement.sizeOf_spec]
        omega
  | version => cases h
  | statement => exact sizeOf_lt_of_mem_statement h
  | instruction i =>
    obtain ⟨name, condition, operands, annots, location⟩ := i
    simp only [children, fields, List.cons_append, List.flatMap_cons, List.flatMap_append,
      List.flatMap_nil, List.append_nil, List.mem_append] at h
    simp only [Node.instruction.sizeOf_spec, Instruction.mk.sizeOf_spec]
    rcases h with h | h | h | h
    · obtain rfl := List.mem_singleton.1 h
      simp only [Node.expr.sizeOf_spec, Expr.identifier.sizeOf_spec]
      cases annots <;> simp <;> omega
    · have := Field.sizeOf_of_mem_optional h
      omega
    · have := Field.sizeOf_of_mem_exprs h
      omega
    · have := Field.sizeOf_of_mem_annotations h
      omega
  | annot a =>
    obtain ⟨interface, operation, operands, location⟩ := a
    simp only [children, fields, List.flatMap_cons, List.flatMap_nil, List.append_nil,
      List.mem_append] at h
    simp only [Node.annot.sizeOf_spec, Annot.mk.sizeOf_spec]
    rcases h with h | h | h
    · obtain rfl := List.mem_singleton.1 h
      simp only [Node.expr.sizeOf_spec, Expr.identifier.sizeOf_spec]
      cases operands <;> simp <;> omega
    · obtain rfl := List.mem_singleton.1 h
      simp only [Node.expr.sizeOf_spec, Expr.identifier.sizeOf_spec]
      cases operands <;> simp <;> omega
    · have := Field.sizeOf_of_mem_exprs h
      omega
  | expr => exact sizeOf_lt_of_mem_expr h
  | entry e =>
    cases e with
    | item index location =>
      obtain rfl : child = .expr index := by simpa [children, fields, Field.nodes] using h
      simp only [Node.entry.sizeOf_spec, Node.expr.sizeOf_spec, IndexEntry.item.sizeOf_spec]
      omega
    | range first last location =>
      simp only [Node.entry.sizeOf_spec, IndexEntry.range.sizeOf_spec]
      simp only [children, fields, Field.nodes, List.flatMap_cons, List.flatMap_nil,
        List.append_nil, List.mem_append, List.mem_singleton] at h
      rcases h with rfl | rfl <;> simp only [Node.expr.sizeOf_spec] <;> omega

/-- A labelled part of a node is one of its children. -/
theorem mem_children_of_mem_labelled {node : Node} {part : String × Node}
    (h : part ∈ node.fields.flatMap Field.labelled) : part.2 ∈ node.children := by
  obtain ⟨field, hfield, hpart⟩ := List.mem_flatMap.1 h
  refine List.mem_flatMap.2 ⟨field, hfield, ?_⟩
  rw [← field.map_snd_labelled]
  exact List.mem_map.2 ⟨part, hpart, rfl⟩

end Node

end Cqasm
