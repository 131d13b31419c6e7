import Cqasm.Tree.Node

/-!
# Outlines: a tree line by line

An `Outline` lists a tree in the order in which it is written: every node with its depth, its place
in its parent, its kind, its range and what it says by itself. What a node says is its own text,
such as a name or a value; its parts have lines of their own.
-/

set_option autoImplicit false

namespace Cqasm

/-- One line of an outline. -/
structure OutlineRow where
  depth : Nat
  /-- The field of the parent, with the places in it: `rows[1][0]`. -/
  role : String
  kind : NodeKind
  /-- What the node says by itself, if it does. -/
  content : Option String
  location : Location

namespace Expr

/-- What an expression says by itself. A matrix tells the lengths of its rows. -/
def content : Expr → Option String
  | integer value _ => some (toString value)
  | float value _ => some value.hex
  | string value _ | json value _ => some value
  | matrix rows _ => some (",".intercalate (rows.map fun row => toString row.length))
  | identifier id => some id.name
  | unary operator _ _ => some operator.spelling
  | binary operator _ _ _ => some operator.spelling
  | _ => none

end Expr

namespace Node

/-- What a node says by itself. -/
def content : Node → Option String
  | version v => some (".".intercalate (v.items.map VersionItem.text))
  | expr e => e.content
  | _ => none

/-- The lines of a node and of all below it. -/
def outline (depth : Nat) (role : String) (node : Node) : List OutlineRow :=
  { depth, role, kind := node.kind, content := node.content, location := node.location } ::
    (node.fields.flatMap Field.labelled).attach.flatMap fun child =>
      outline (depth + 1) child.1.1 child.1.2
termination_by sizeOf node
decreasing_by exact sizeOf_lt_of_mem_children (mem_children_of_mem_labelled child.2)

end Node

/-- The outline of a whole tree. -/
def Root.outline (root : Root) : List OutlineRow :=
  (Node.root root).outline 0 "root"

/-- The different file names in a tree, in the order of their first appearance. -/
def Root.files (root : Root) : List String :=
  (root.outline.map (·.location.file)).eraseDups

end Cqasm
