import Cqasm.Proofs.Tree.Relocation
import Cqasm.Tree.Node

/-!
# The children of a node

What the children of a node are, constructor by constructor, and what it means that something holds
of a node and of everything below it (`Node.Everywhere`).
-/

set_option autoImplicit false

namespace Cqasm

/-- Something holds of a node and of everything below it. -/
inductive Node.Everywhere (p : Node → Prop) : Node → Prop
  | mk {node : Node} : p node → (∀ child ∈ node.children, Everywhere p child) → Everywhere p node

namespace Node.Everywhere

variable {p : Node → Prop} {node : Node}

/-- A property of every node below is one of the node itself. -/
theorem here (h : node.Everywhere p) : p node := by
  cases h with
  | mk hnode => exact hnode

/-- It is passed on from a node to its children, which is how one gets down to where something
is. -/
theorem child (h : node.Everywhere p) {child : Node} (hchild : child ∈ node.children) :
    child.Everywhere p := by
  cases h with
  | mk _ hchildren => exact hchildren child hchild

/-- Two properties of all nodes may be used together. -/
theorem mp {q : Node → Prop} (hp : node.Everywhere p) (h : node.Everywhere fun n => p n → q n) :
    node.Everywhere q := by
  induction hp with
  | mk hnode _ ih => exact .mk (h.here hnode) fun child hchild => ih child hchild (h.child hchild)

end Node.Everywhere

/-! ## Children -/

section

variable (location : Location)

/-- The rows of a matrix are taken one after the other. Where one ends cannot be seen from the
children. -/
theorem Node.children_matrix (rows : List (List Expr)) :
    (expr (.matrix rows location)).children = rows.flatten.map expr := by
  simp [children, fields, Expr.fields, Field.nodes, List.map_flatten]

/-- The name of a function comes before its arguments. -/
theorem Node.children_call (function : Identifier) (args : List Expr) :
    (expr (.call function args location)).children =
      expr (.identifier function) :: args.map expr := by
  simp [children, fields, Expr.fields, Field.nodes, Field.identifier, Field.exprs]

/-- What is indexed comes before the entries of the index. -/
theorem Node.children_index (base : Expr) (entries : List IndexEntry) :
    (expr (.index base entries location)).children = expr base :: entries.map entry := by
  simp [children, fields, Expr.fields, Field.nodes]

/-- An entry of an index holds one expression or, for a range, two. -/
theorem Node.children_entry (e : IndexEntry) : (entry e).children = e.parts.map expr := by
  cases e <;> simp [children, fields, Field.nodes, IndexEntry.parts]

theorem Node.children_annot (a : Annot) :
    (annot a).children = expr (.identifier a.interface) :: expr (.identifier a.operation) ::
      a.operands.map expr := by
  simp [children, fields, Field.nodes, Field.identifier, Field.exprs]

/-- A condition comes behind the name of the gate, although it stands in front of it in the text of
a conditional instruction. -/
theorem Node.children_instruction (i : Instruction) :
    (instruction i).children = expr (.identifier i.name) ::
      (i.condition.toList.map expr ++ (i.operands.map expr ++ i.annotations.map annot)) := by
  cases h : i.condition <;>
    simp [children, fields, Field.nodes, Field.identifier, Field.exprs, Field.optional,
      Field.annotations, h]

/-- The alias comes before the expression, in whichever order the two are written. -/
theorem Node.children_mapping (target : Identifier) (e : Expr) (annotations : List Annot) :
    (statement (.mapping target e annotations location)).children =
      expr (.identifier target) :: expr e :: annotations.map annot := by
  simp [children, fields, Statement.fields, Field.nodes, Field.identifier, Field.annotations]

theorem Node.children_declaration (names : List Identifier) (type : Identifier)
    (annotations : List Annot) :
    (statement (.declaration names type annotations location)).children =
      names.map (fun id => expr (.identifier id)) ++
        expr (.identifier type) :: annotations.map annot := by
  simp [children, fields, Statement.fields, Field.nodes, Field.identifier, Field.identifiers,
    Field.annotations]

/-- The number of iterations is there only if one was written. -/
theorem Node.children_subcircuit (name : Identifier) (iterations : Option Expr)
    (annotations : List Annot) :
    (statement (.subcircuit name iterations annotations location)).children =
      expr (.identifier name) :: (iterations.toList.map expr ++ annotations.map annot) := by
  cases iterations <;>
    simp [children, fields, Statement.fields, Field.nodes, Field.identifier, Field.optional,
      Field.annotations]

theorem Node.children_errorModel (name : Identifier) (args : List Expr)
    (annotations : List Annot) :
    (statement (.errorModel name args annotations location)).children =
      expr (.identifier name) :: (args.map expr ++ annotations.map annot) := by
  simp [children, fields, Statement.fields, Field.nodes, Field.identifier, Field.exprs,
    Field.annotations]

theorem Node.children_bundle (items : List Instruction) :
    (statement (.bundle items location)).children = items.map instruction := by
  simp [children, fields, Statement.fields, Field.nodes]

/-- A program starts with its version. The count of qubits is there only if one was written. -/
theorem Node.children_program (v : Version) (qubits : Option Expr) (statements : List Statement) :
    (program (.program v qubits statements location)).children =
      version v :: (qubits.toList.map expr ++ statements.map statement) := by
  cases qubits <;> simp [children, fields, Field.nodes, Field.optional]

end

end Cqasm
