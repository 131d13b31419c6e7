import Mathlib.Data.List.Basic
import Mathlib.Data.List.Enum
import Cqasm.Proofs.Tree.Placeholders

/-!
# Walks in order

A path leads from a node to one below it, child by child (`Node.at?`). Two paths to the same node
are two occurrences of it, and the order of paths as lists is the order of occurrences in a tree: a
node stands before all below it, and that before whatever is below the next child.

A walk that does not go into nodes of some kinds visits the end of every path on which there is no
node of such a kind above the end, each once and in this order (`Node.walk_in_order`). To collect
the placeholders is to walk over everything and keep these, and looking for one finds one exactly if
that leaves any.
-/

set_option autoImplicit false

namespace Cqasm.Node

/-- The node to which a path leads: from each node to the child of an index. -/
def at? (node : Node) : List Nat → Option Node
  | [] => some node
  | i :: path => node.children[i]?.bind (·.at? path)

/-- That there is a node at the end of a path, and above it none of the given kinds. -/
structure Reaches (skipped : List NodeKind) (node : Node) (path : List Nat) : Prop where
  exists_node : ∃ n, node.at? path = some n
  above : ∀ above, above <+: path → above ≠ path → ∀ n, node.at? above = some n → n.kind ∉ skipped

/-- A node and everything below it, each before its children and these one after the other, without
what is below nodes of the given kinds. -/
def preorder (skipped : List NodeKind) (node : Node) : List Node :=
  node :: if node.kind ∈ skipped then []
    else node.children.attach.flatMap fun child => preorder skipped child.1
termination_by sizeOf node
decreasing_by exact sizeOf_lt_of_mem_children child.2

/-- The paths to the nodes of `preorder`. -/
def paths (skipped : List NodeKind) (node : Node) : List (List Nat) :=
  [] :: if node.kind ∈ skipped then []
    else node.children.attach.zipIdx.flatMap fun child =>
      (paths skipped child.1.1).map (child.2 :: ·)
termination_by sizeOf node
decreasing_by exact sizeOf_lt_of_mem_children child.1.2

variable {skipped : List NodeKind} {node : Node} {path : List Nat}

theorem preorder_of_mem (h : node.kind ∈ skipped) : node.preorder skipped = [node] := by
  rw [preorder, if_pos h]

theorem preorder_of_notMem (h : node.kind ∉ skipped) :
    node.preorder skipped = node :: node.children.flatMap (preorder skipped) := by
  rw [preorder, if_neg h, List.flatMap_subtype (g := preorder skipped) fun _ _ => rfl,
    List.unattach_attach]

theorem paths_of_mem (h : node.kind ∈ skipped) : node.paths skipped = [[]] := by
  rw [paths, if_pos h]

theorem paths_of_notMem (h : node.kind ∉ skipped) :
    node.paths skipped = [] ::
      node.children.zipIdx.flatMap fun child => (child.1.paths skipped).map (child.2 :: ·) := by
  have hzip : node.children.zipIdx = node.children.attach.zipIdx.map (Prod.map Subtype.val id) := by
    rw [← List.zipIdx_map, List.attach_map_subtype_val]
  rw [paths, if_neg h, hzip, List.flatMap_map]
  rfl

/-! ## Walking -/

/-- A walk that does not go into nodes of the given kinds does something at each of the nodes in
order, whatever that is. -/
theorem traverse_eq_foldl {σ : Type} (act : σ → Node → σ) (state : σ) :
    traverse (fun state n => { state := act state n, descend := !skipped.contains n.kind }) state
      node = (node.preorder skipped).foldl act state := by
  induction node using induction_on_children generalizing state with
  | h node ih =>
    rw [traverse_eq]
    by_cases hskipped : node.kind ∈ skipped
    · rw [preorder_of_mem hskipped, if_neg (by simpa using hskipped)]
      rfl
    · rw [preorder_of_notMem hskipped, if_pos (by simpa using hskipped), List.foldl_cons,
        List.foldl_flatMap]
      exact List.foldl_ext _ _ _ fun state child hchild => ih child hchild state

/-- What a walk visits, it visits in the order of the text. -/
theorem visited_eq_preorder : node.visited skipped = node.preorder skipped := by
  rw [visited, traverse_eq_foldl, List.foldl_flip_cons_eq_append, List.append_nil,
    List.reverse_reverse, List.map_id']

/-- Collecting in front turns the order round. -/
theorem foldl_collect_eq (nodes found : List Node) :
    nodes.foldl (fun found n => if n.isPlaceholder then n :: found else found) found =
      (nodes.filter isPlaceholder).reverse ++ found := by
  induction nodes generalizing found with
  | nil => rfl
  | cons node nodes ih =>
    rw [List.foldl_cons, ih]
    cases h : node.isPlaceholder <;> simp [h]

/-- Collecting placeholders is walking over everything and keeping these. -/
theorem placeholders_eq_filter : node.placeholders = (node.preorder []).filter isPlaceholder := by
  have hwalk := @traverse_eq_foldl [] node _
    (fun found n => if n.isPlaceholder then n :: found else found) []
  rw [foldl_collect_eq, List.append_nil] at hwalk
  rw [← List.reverse_reverse ((node.preorder []).filter _), ← hwalk]
  rfl

/-! ## Paths -/

/-- The nodes at the paths are those that are visited, in the same order. -/
theorem map_at?_paths : (node.paths skipped).map node.at? = (node.preorder skipped).map some := by
  induction node using induction_on_children with
  | h node ih =>
    by_cases hskipped : node.kind ∈ skipped
    · rw [paths_of_mem hskipped, preorder_of_mem hskipped]
      rfl
    · have hchild : ∀ child ∈ node.children.zipIdx,
          ((child.1.paths skipped).map (child.2 :: ·)).map node.at? =
            (child.1.preorder skipped).map some := by
        intro child hchild
        rw [List.map_map, ← ih child.1 (List.fst_mem_of_mem_zipIdx hchild)]
        refine List.map_congr_left fun path _ => ?_
        rw [Function.comp_apply, at?, List.mem_zipIdx_iff_getElem?.1 hchild, Option.bind_some]
      have hpreorder : node.children.flatMap (fun child => (child.preorder skipped).map some) =
          node.children.zipIdx.flatMap fun child => (child.1.preorder skipped).map some := by
        conv_lhs => rw [← List.zipIdx_map_fst 0 node.children, List.flatMap_map]
      rw [paths_of_notMem hskipped, preorder_of_notMem hskipped, List.map_cons, List.map_cons,
        List.map_flatMap, List.map_flatMap, hpreorder, List.flatMap_congr hchild, at?]

/-- Paths come in their lexicographic order, and none comes twice. -/
theorem pairwise_paths : (node.paths skipped).Pairwise (· < ·) := by
  induction node using induction_on_children with
  | h node ih =>
    by_cases hskipped : node.kind ∈ skipped
    · rw [paths_of_mem hskipped]
      exact List.pairwise_singleton ..
    · rw [paths_of_notMem hskipped, List.pairwise_cons, List.pairwise_flatMap]
      refine ⟨fun path hpath => ?_, fun child hchild => ?_, ?_⟩
      · obtain ⟨child, -, hpath⟩ := List.mem_flatMap.1 hpath
        obtain ⟨rest, -, rfl⟩ := List.mem_map.1 hpath
        exact List.nil_lt_cons _ _
      · rw [List.pairwise_map]
        exact (ih child.1 (List.fst_mem_of_mem_zipIdx hchild)).imp fun h =>
          List.cons_lt_cons_iff.2 (.inr ⟨rfl, h⟩)
      · have hindices : (node.children.zipIdx.map Prod.snd).Pairwise (· < ·) := by
          rw [List.zipIdx_map_snd]
          exact List.pairwise_lt_range'
        refine (List.pairwise_map.1 hindices).imp fun hlt path hpath path' hpath' => ?_
        obtain ⟨_, -, rfl⟩ := List.mem_map.1 hpath
        obtain ⟨_, -, rfl⟩ := List.mem_map.1 hpath'
        exact List.cons_lt_cons_iff.2 (.inl hlt)

theorem reaches_nil : node.Reaches skipped [] :=
  ⟨⟨node, rfl⟩, fun _ hprefix hne => absurd (List.prefix_nil.1 hprefix) hne⟩

/-- A path leads on from a node only if the node is not skipped. -/
theorem reaches_cons_iff {i : Nat} : node.Reaches skipped (i :: path) ↔
    node.kind ∉ skipped ∧ ∃ child, node.children[i]? = some child ∧ child.Reaches skipped path := by
  constructor
  · rintro ⟨⟨n, hn⟩, habove⟩
    obtain ⟨child, hchild, hn⟩ := Option.bind_eq_some_iff.1 hn
    refine ⟨habove [] List.nil_prefix (List.cons_ne_nil _ _).symm node rfl, child, hchild, ⟨n, hn⟩,
      fun above hprefix hne n hn => ?_⟩
    refine habove (i :: above) ((List.prefix_cons_inj i).2 hprefix) (by simpa using hne) n ?_
    rw [at?, hchild]
    exact hn
  · rintro ⟨hskipped, child, hchild, ⟨n, hn⟩, habove⟩
    refine ⟨⟨n, ?_⟩, fun above hprefix hne m hm => ?_⟩
    · rw [at?, hchild]
      exact hn
    · rcases List.prefix_cons_iff.1 hprefix with rfl | ⟨rest, rfl, hrest⟩
      · cases hm
        exact hskipped
      · rw [at?, hchild] at hm
        exact habove rest hrest (by simpa using hne) m hm

/-- The paths of a walk are those along which nothing is skipped. -/
theorem mem_paths_iff : path ∈ node.paths skipped ↔ node.Reaches skipped path := by
  induction path generalizing node with
  | nil =>
    refine iff_of_true ?_ reaches_nil
    rw [paths]
    exact List.mem_cons_self
  | cons i path ih =>
    rw [reaches_cons_iff]
    by_cases hskipped : node.kind ∈ skipped
    · simp [paths_of_mem hskipped, hskipped]
    · have hchild (child : Node × Nat) :
          i :: path ∈ (child.1.paths skipped).map (child.2 :: ·) ↔
            child.2 = i ∧ child.1.Reaches skipped path := by
        rw [← ih, List.mem_map]
        constructor
        · rintro ⟨_, hmem, heq⟩
          cases heq
          exact ⟨rfl, hmem⟩
        · rintro ⟨rfl, hmem⟩
          exact ⟨path, hmem, rfl⟩
      simp [paths_of_notMem hskipped, hskipped, hchild, List.mem_zipIdx_iff_getElem?]

/-! ## Walks -/

/-- A walk that does not go into nodes of some kinds comes to every occurrence of a node below no
node of such a kind, to each once and in the order of the paths, and what it does is done at these.
The placeholders are those nodes of a walk over everything, and a node is complete if there are
none. -/
theorem walk_in_order (skipped : List NodeKind) (node : Node) :
    (∃ paths : List (List Nat), paths.Pairwise (· < ·) ∧
        (∀ path, path ∈ paths ↔ node.Reaches skipped path) ∧
        paths.map node.at? = (node.visited skipped).map some) ∧
      (∀ {σ : Type} (act : σ → Node → σ) (state : σ),
        traverse
            (fun state n => { state := act state n, descend := !skipped.contains n.kind }) state
            node =
          (node.visited skipped).foldl act state) ∧
      node.placeholders = (node.visited []).filter isPlaceholder ∧
      (node.isComplete ↔ node.placeholders = []) := by
  rw [visited_eq_preorder, visited_eq_preorder]
  exact ⟨⟨node.paths skipped, pairwise_paths, fun _ => mem_paths_iff, map_at?_paths⟩,
    traverse_eq_foldl, placeholders_eq_filter, isComplete_iff⟩

end Cqasm.Node
