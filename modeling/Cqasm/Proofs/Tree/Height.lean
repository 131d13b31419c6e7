import Cqasm.Proofs.Tree.Children

/-!
# How high a tree is

The height of a node is the number of steps on the longest way down from it (`Node.height`). An
operator can be followed by any number of others without a bracket between them, each of which is a
step down: a chain goes on in the operand of a prefix operator, in what an index stands behind, in
the exponent of a power, and in the left operand of every other operator (`Node.chained`). These are
the steps that the parser makes without counting them. The nesting of a node is what is left of its
height when they are left out (`Node.nesting`): as much of the height as is kept within limits.
-/

set_option autoImplicit false

namespace Cqasm

theorem foldr_max_le_iff {lengths : List Nat} {n : Nat} :
    lengths.foldr max 0 ≤ n ↔ ∀ length ∈ lengths, length ≤ n := by
  induction lengths with
  | nil => simp
  | cons length lengths ih => rw [List.foldr_cons, Nat.max_le, ih, List.forall_mem_cons]

namespace Node

/-- The child in which a chain of operators goes on, if a node is an operator. -/
def chained : Node → List Node
  | expr (.index base _ _) => [expr base]
  | expr (.unary _ operand _) => [expr operand]
  | expr (.binary operator lhs rhs _) => if operator = .power then [expr rhs] else [expr lhs]
  | _ => []

/-- All other children of a node. -/
def inner : Node → List Node
  | expr (.index _ entries _) => entries.map entry
  | expr (.unary _ _ _) => []
  | expr (.binary operator lhs rhs _) => if operator = .power then [expr lhs] else [expr rhs]
  | node => node.children

theorem perm_children (node : Node) : (node.chained ++ node.inner).Perm node.children := by
  cases node with
  | expr e =>
    cases e with
    | index base entries location =>
      rw [children_index]
      exact .refl _
    | binary operator lhs rhs location =>
      rw [chained, inner]
      split
      · exact .swap ..
      · exact .refl _
    | _ => exact .refl _
  | _ => exact .refl _

theorem mem_children_of_chained {child node : Node} (h : child ∈ node.chained) :
    child ∈ node.children :=
  node.perm_children.mem_iff.1 (List.mem_append_left _ h)

theorem mem_children_of_inner {child node : Node} (h : child ∈ node.inner) :
    child ∈ node.children :=
  node.perm_children.mem_iff.1 (List.mem_append_right _ h)

/-- The number of steps on the longest way down from a node. -/
def height (node : Node) : Nat :=
  (node.children.attach.map fun child => height child.1 + 1).foldr max 0
termination_by sizeOf node
decreasing_by exact sizeOf_lt_of_mem_children child.2

/-- The number of steps on the longest way down from a node, apart from those by which a chain of
operators goes on. -/
def nesting (node : Node) : Nat :=
  max ((node.chained.attach.map fun child => nesting child.1).foldr max 0)
    ((node.inner.attach.map fun child => nesting child.1 + 1).foldr max 0)
termination_by sizeOf node
decreasing_by
  · exact sizeOf_lt_of_mem_children (mem_children_of_chained child.2)
  · exact sizeOf_lt_of_mem_children (mem_children_of_inner child.2)

theorem height_le_iff {node : Node} {n : Nat} :
    node.height ≤ n ↔ ∀ child ∈ node.children, child.height + 1 ≤ n := by
  rw [height, foldr_max_le_iff]
  simp

theorem nesting_le_iff {node : Node} {n : Nat} :
    node.nesting ≤ n ↔ (∀ child ∈ node.chained, child.nesting ≤ n) ∧
      ∀ child ∈ node.inner, child.nesting + 1 ≤ n := by
  rw [nesting, Nat.max_le, foldr_max_le_iff, foldr_max_le_iff]
  simp

theorem height_lt_of_mem_children {child node : Node} (h : child ∈ node.children) :
    child.height < node.height :=
  height_le_iff.1 (Nat.le_refl _) child h

/-- Below a node that is no operator, every step is counted. -/
theorem nesting_le_iff_of_plain {node : Node} {n : Nat} (h : node.chained = []) :
    node.nesting ≤ n ↔ ∀ child ∈ node.children, child.nesting + 1 ≤ n := by
  have hinner : node.inner.Perm node.children := by simpa [h] using node.perm_children
  rw [nesting_le_iff, h]
  simp [hinner.mem_iff]

/-- Parentheses around an expression are no step. -/
theorem nesting_withLocation_le_iff (location : Location) (e : Expr) {n : Nat} :
    (expr (e.withLocation location)).nesting ≤ n ↔ (expr e).nesting ≤ n := by
  have hchained : (expr (e.withLocation location)).chained = (expr e).chained := by cases e <;> rfl
  have hinner : (expr (e.withLocation location)).inner = (expr e).inner := by cases e <;> rfl
  rw [nesting_le_iff, nesting_le_iff, hchained, hinner]

/-! ## Statements and what is above them -/

/-- How many steps there may be from a node to an expression below it. -/
def rank : Node → Nat
  | expr _ | version _ => 0
  | entry _ | annot _ => 1
  | instruction _ => 2
  | statement _ => 3
  | program _ => 4
  | root _ => 5

theorem rank_lt_rank {child node : Node} (hnode : ∀ e, node ≠ expr e)
    (h : child ∈ node.children) : child.rank < node.rank := by
  revert child
  -- Below anything but an expression there is only what is of a lower rank.
  cases node with
  | expr e => exact absurd rfl (hnode e)
  | version v => simp [children, fields]
  | entry entry => simp [children_entry, rank]
  | annot a => simp [children_annot, rank]
  | instruction i => simp [children_instruction, rank, or_imp, forall_and]
  | statement s =>
    cases s with
    | mapping => simp [children_mapping, rank]
    | declaration => simp [children_declaration, rank, or_imp, forall_and]
    | subcircuit => simp [children_subcircuit, rank, or_imp, forall_and]
    | errorModel => simp [children_errorModel, rank, or_imp, forall_and]
    | bundle => simp [children_bundle, rank]
    | erroneous => simp [children, fields, Statement.fields]
  | program p =>
    cases p with
    | program => simp [children_program, rank, or_imp, forall_and]
    | erroneous => simp [children, fields]
  | root r => simp [children, fields, Field.nodes, rank]

/-- Whoever knows how deep the expressions are nested knows it of everything. -/
theorem nesting_le_of_everywhere {node : Node} {n : Nat}
    (h : node.Everywhere fun node => ∀ e, node = expr e → node.nesting ≤ n) :
    node.nesting ≤ n + node.rank := by
  induction h with
  | @mk node hnode _ ih =>
    by_cases hexpr : ∃ e, node = expr e
    · obtain ⟨e, rfl⟩ := hexpr
      exact hnode e rfl
    · have hother : ∀ e, node ≠ expr e := fun e heq => hexpr ⟨e, heq⟩
      have hchained : node.chained = [] := by
        cases node with
        | expr e => exact absurd rfl (hother e)
        | _ => rfl
      rw [nesting_le_iff_of_plain hchained]
      intro child hchild
      have hle := ih child hchild
      have hrank := rank_lt_rank hother hchild
      omega

end Node

end Cqasm
