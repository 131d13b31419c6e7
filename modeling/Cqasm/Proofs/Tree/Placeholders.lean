import Cqasm.Tree.Traversal

/-!
# The placeholders of a tree

The walk that collects placeholders lists a node before everything below it
(`Node.placeholders_eq`), and the walk that looks for one finds one exactly if that list is not
empty (`Node.isComplete_iff`). So a complete node is one that is no placeholder and has complete
children (`Node.placeholders_eq_nil_iff`).
-/

set_option autoImplicit false

namespace Cqasm.Node

/-- A walk goes on with the children one after the other. -/
theorem traverse_eq {σ : Type} (visit : σ → Node → Visit σ) (state : σ) (node : Node) :
    traverse visit state node =
      if (visit state node).descend then
        node.children.foldl (traverse visit) (visit state node).state
      else (visit state node).state := by
  rw [traverse]
  split
  · exact List.foldl_attach
  · rfl

/-- Induction over a tree: a node comes after its children. -/
theorem induction_on_children {motive : Node → Prop}
    (h : ∀ node, (∀ child ∈ node.children, motive child) → motive node) (node : Node) :
    motive node :=
  h node fun child hchild =>
    have := sizeOf_lt_of_mem_children hchild
    induction_on_children h child
termination_by sizeOf node

/-- The visitor that collects placeholders, the last one found in front. -/
def collect (found : List Node) (node : Node) : Visit (List Node) :=
  { state := if node.isPlaceholder then node :: found else found, descend := true }

/-- A node by itself, if it is a placeholder. -/
def own (node : Node) : List Node :=
  if node.isPlaceholder then [node] else []

theorem foldl_collect {nodes : List Node}
    (h : ∀ node ∈ nodes, ∀ found, traverse collect found node = node.placeholders.reverse ++ found)
    (found : List Node) :
    nodes.foldl (traverse collect) found = (nodes.flatMap placeholders).reverse ++ found := by
  induction nodes generalizing found with
  | nil => rfl
  | cons node nodes ih =>
    obtain ⟨hnode, hnodes⟩ := List.forall_mem_cons.1 h
    rw [List.foldl_cons, hnode, ih hnodes, List.flatMap_cons, List.reverse_append,
      List.append_assoc]

/-- What was found before stays, and what the node adds comes in front of it. -/
theorem traverse_collect (node : Node) (found : List Node) :
    traverse collect found node = node.placeholders.reverse ++ found := by
  induction node using induction_on_children generalizing found with
  | h node ih =>
    have hstep (found : List Node) : traverse collect found node =
        (node.children.flatMap placeholders).reverse ++ (collect found node).state := by
      rw [traverse_eq]
      exact foldl_collect ih _
    have hplaceholders : node.placeholders =
        ((node.children.flatMap placeholders).reverse ++ (collect [] node).state).reverse :=
      congrArg List.reverse (hstep [])
    rw [hstep, hplaceholders, List.reverse_reverse, collect, collect]
    split
    · rw [List.append_assoc]
      rfl
    · rw [List.append_nil]

/-- A node is listed before everything below it, and its children one after the other. -/
theorem placeholders_eq (node : Node) :
    node.placeholders = node.own ++ node.children.flatMap placeholders := by
  have h : node.placeholders = (node.children.foldl (traverse collect) node.own).reverse :=
    congrArg List.reverse (traverse_eq collect [] node)
  rw [h, foldl_collect fun child _ => traverse_collect child, own]
  split
  · rw [List.reverse_append, List.reverse_reverse]
    rfl
  · rw [List.append_nil, List.reverse_reverse, List.nil_append]

theorem placeholders_eq_nil_iff {node : Node} :
    node.placeholders = [] ↔
      node.isPlaceholder = false ∧ ∀ child ∈ node.children, child.placeholders = [] := by
  rw [placeholders_eq, List.append_eq_nil_iff, List.flatMap_eq_nil_iff, own]
  cases node.isPlaceholder <;> simp

/-! ## Looking for one -/

/-- The visitor that makes sure there is no placeholder. -/
def check (complete : Bool) (node : Node) : Visit Bool :=
  { state := complete && !node.isPlaceholder, descend := complete && !node.isPlaceholder }

/-- Once a placeholder has been seen, the walk says so to its end. -/
theorem traverse_check_false (node : Node) : traverse check false node = false := by
  rw [traverse_eq]
  rfl

theorem foldl_check {nodes : List Node}
    (h : ∀ node ∈ nodes, traverse check true node = node.placeholders.isEmpty) (complete : Bool) :
    nodes.foldl (traverse check) complete =
      (complete && (nodes.flatMap placeholders).isEmpty) := by
  induction nodes generalizing complete with
  | nil => simp
  | cons node nodes ih =>
    obtain ⟨hnode, hnodes⟩ := List.forall_mem_cons.1 h
    rw [List.foldl_cons, ih hnodes, List.flatMap_cons]
    cases complete with
    | false => rw [traverse_check_false, Bool.false_and, Bool.false_and]
    | true =>
      rw [hnode, Bool.true_and]
      cases node.placeholders <;> rfl

theorem isComplete_eq (node : Node) : node.isComplete = node.placeholders.isEmpty := by
  induction node using induction_on_children with
  | h node ih =>
    change traverse check true node = _
    rw [traverse_eq, placeholders_eq, own, check]
    cases hnode : node.isPlaceholder with
    | true => simp
    | false => exact foldl_check ih true

theorem isComplete_iff {node : Node} : node.isComplete ↔ node.placeholders = [] := by
  rw [isComplete_eq, List.isEmpty_iff]

end Cqasm.Node
