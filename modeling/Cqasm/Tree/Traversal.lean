import Cqasm.Tree.Node

/-!
# Walking over a tree

`Node.traverse` visits a node and then, unless the visitor refuses, its children in order, each with
all that is below it before the next. The visitor carries a state from node to node, so what it says
of one node may depend on every node before. The placeholders of a tree are collected by such a
walk, and making sure that there is none is a walk that goes into nothing more once one has been
seen.

A walk calls itself for each child. How many such calls may be in progress at a time, which is as
many as the tree is high, is left out of account: here a walk through any tree comes to an end.
-/

set_option autoImplicit false

namespace Cqasm.Node

/-- What a visitor makes of a node: the state to go on with, and whether to go into the node. -/
structure Visit (σ : Type) where
  state : σ
  descend : Bool

/-- The state after a visit to the node and to all below it that the visitor is led to. -/
def traverse {σ : Type} (visit : σ → Node → Visit σ) (state : σ) (node : Node) : σ :=
  let visited := visit state node
  if visited.descend then
    node.children.attach.foldl (fun state child => traverse visit state child.1) visited.state
  else visited.state
termination_by sizeOf node
decreasing_by exact sizeOf_lt_of_mem_children child.2

/-- The nodes that a walk visits, in order, when it does not go into nodes of the given kinds. -/
def visited (skipped : List NodeKind) (node : Node) : List Node :=
  (node.traverse
    (fun seen n => { state := n :: seen, descend := !skipped.contains n.kind }) []).reverse

/-- The placeholders at or below a node, in the order of the walk. -/
def placeholders (node : Node) : List Node :=
  (node.traverse
    (fun found n => { state := if n.isPlaceholder then n :: found else found, descend := true })
    []).reverse

/-- Whether there is no placeholder at or below a node. -/
def isComplete (node : Node) : Bool :=
  node.traverse
    (fun complete n =>
      let complete := complete && !n.isPlaceholder
      { state := complete, descend := complete })
    true

end Cqasm.Node
