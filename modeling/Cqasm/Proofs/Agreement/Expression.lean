import Cqasm.Proofs.Agreement.Parser
import Cqasm.Proofs.Tree.Relocation
import Cqasm.Reader.Expression

/-!
# Agreement on expressions

Two expressions are alike if they are the same once their ranges are (`Likeness.Exprs`). Reading
rows of tokens that are alike reads expressions that are alike (`Likeness.agree_expression`), layer
by layer.
-/

set_option autoImplicit false

namespace Cqasm

/-- Moving all ranges of an expression moves its own. -/
theorem Expr.location_relocate (f : Location → Location) (e : Expr) :
    (e.relocate f).location = f e.location := by
  cases e <;> simp [relocate, location, Identifier.relocate]

/-- Lists are alike as soon as their items are, place by place. -/
theorem map_eq_of_forall₂ {α β γ : Type} {f : α → γ} {g : β → γ} {xs : List α} {ys : List β}
    (h : List.Forall₂ (fun x y => f x = g y) xs ys) : xs.map f = ys.map g := by
  induction h with
  | nil => rfl
  | cons hx _ ih => rw [List.map_cons, List.map_cons, hx, ih]

namespace Likeness

open Cqasm.Parser

variable {file file' : String} (k : Likeness file file')

/-- Names are alike if they are the same once their ranges are. -/
def Names (a b : Identifier) : Prop :=
  a.relocate k.left = b.relocate k.right

/-- Expressions are alike if they are the same once their ranges are. -/
def Exprs (e e' : Expr) : Prop :=
  e.relocate k.left = e'.relocate k.right

/-- The same for index entries. -/
def Entries (entry entry' : IndexEntry) : Prop :=
  entry.relocate k.left = entry'.relocate k.right

variable {k} {e e' : Expr} {a b : Location}

/-- Expressions that are alike have ranges that are. -/
theorem Exprs.ranges (h : k.Exprs e e') : k.Ranges e.location e'.location := by
  have hlocation := congrArg Expr.location h
  rwa [Expr.location_relocate, Expr.location_relocate] at hlocation

/-- Parentheses give an expression another range and change nothing else, so likeness of the two
ranges is enough. -/
theorem Exprs.withLocation (h : k.Exprs e e') (hrange : k.Ranges a b) :
    k.Exprs (e.withLocation a) (e'.withLocation b) := by
  unfold Exprs
  rw [Expr.relocate_withLocation, Expr.relocate_withLocation, h, hrange]

/-- Likeness is put together as the trees are: each constructor takes likeness of its parts to
likeness of the whole. -/
theorem exprs_binary {operator : BinaryOperator} {lhs lhs' rhs rhs' : Expr}
    (hlhs : k.Exprs lhs lhs') (hrhs : k.Exprs rhs rhs') (hrange : k.Ranges a b) :
    k.Exprs (.binary operator lhs rhs a) (.binary operator lhs' rhs' b) := by
  unfold Exprs at *
  rw [Expr.relocate, Expr.relocate, hlhs, hrhs, hrange]

theorem exprs_unary {operator : UnaryOperator} (h : k.Exprs e e') (hrange : k.Ranges a b) :
    k.Exprs (.unary operator e a) (.unary operator e' b) := by
  unfold Exprs at *
  rw [Expr.relocate, Expr.relocate, h, hrange]

theorem exprs_index {entries entries' : List IndexEntry} (h : k.Exprs e e')
    (hentries : List.Forall₂ k.Entries entries entries') (hrange : k.Ranges a b) :
    k.Exprs (.index e entries a) (.index e' entries' b) := by
  unfold Exprs at *
  rw [Expr.relocate, Expr.relocate, h, hrange, map_eq_of_forall₂ hentries]

theorem exprs_call {id id' : Identifier} {args args' : List Expr} (hname : k.Names id id')
    (hargs : List.Forall₂ k.Exprs args args') (hrange : k.Ranges a b) :
    k.Exprs (.call id args a) (.call id' args' b) := by
  unfold Exprs Names at *
  rw [Expr.relocate, Expr.relocate, hname, hrange, map_eq_of_forall₂ hargs]

/-- For a matrix, elements are compared row by row. -/
theorem exprs_matrix {rows rows' : List (List Expr)}
    (h : List.Forall₂ (List.Forall₂ k.Exprs) rows rows') (hrange : k.Ranges a b) :
    k.Exprs (.matrix rows a) (.matrix rows' b) := by
  have hrows : rows.map (List.map (Expr.relocate k.left)) =
      rows'.map (List.map (Expr.relocate k.right)) :=
    map_eq_of_forall₂ (h.imp fun _ _ hrow => map_eq_of_forall₂ hrow)
  unfold Exprs
  rw [Expr.relocate, Expr.relocate, hrange]
  exact congrArg (Expr.matrix · _) hrows

/-! ## Chains of operators -/

/-- An operator with the operand behind it. -/
def Sides (side side' : BinaryOperator × Expr) : Prop :=
  side.1 = side'.1 ∧ k.Exprs side.2 side'.2

/-- The range of a joined expression is made of the ranges of its operands, so there is nothing to
be shown for it. -/
theorem exprs_joined {operator : BinaryOperator} {lhs lhs' rhs rhs' : Expr}
    (hlhs : k.Exprs lhs lhs') (hrhs : k.Exprs rhs rhs') :
    k.Exprs (lhs.joined operator rhs) (lhs'.joined operator rhs') :=
  exprs_binary hlhs hrhs (k.through_eq hlhs.ranges hrhs.ranges)

/-- Chains that are folded up to the left, one operator at a time. -/
theorem exprs_joinLeft {first first' : Expr} {rest rest' : List (BinaryOperator × Expr)}
    (hfirst : k.Exprs first first') (hrest : List.Forall₂ (Sides (k := k)) rest rest') :
    k.Exprs (first.joinLeft rest) (first'.joinLeft rest') := by
  induction hrest generalizing first first' with
  | nil => exact hfirst
  | @cons side side' rest rest' hside _ ih =>
    obtain ⟨operator, rhs⟩ := side
    obtain ⟨operator', rhs'⟩ := side'
    obtain ⟨rfl, hrhs⟩ := hside
    exact ih (exprs_joined hfirst hrhs)

/-- Chains that are folded up to the right. The induction starts from any first operand, since each
step replaces it. -/
theorem exprs_joinRight {first first' : Expr} {rest rest' : List (BinaryOperator × Expr)}
    (hfirst : k.Exprs first first') (hrest : List.Forall₂ (Sides (k := k)) rest rest') :
    k.Exprs (first.joinRight rest) (first'.joinRight rest') := by
  induction hrest generalizing first first' with
  | nil => exact hfirst
  | @cons side side' rest rest' hside _ ih =>
    obtain ⟨operator, rhs⟩ := side
    obtain ⟨operator', rhs'⟩ := side'
    obtain ⟨rfl, hrhs⟩ := hside
    exact exprs_joined hfirst (ih hrhs)

/-- Operators in front are applied from the last one on, the innermost. -/
theorem exprs_applied {operators operators' : List (UnaryOperator × Location)}
    (hoperators : List.Forall₂ (fun o o' => o.1 = o'.1 ∧ k.Ranges o.2 o'.2) operators operators')
    (h : k.Exprs e e') : k.Exprs (e.applied operators) (e'.applied operators') := by
  induction hoperators with
  | nil => exact h
  | @cons o o' _ _ hoperator _ ih =>
    obtain ⟨operator, start⟩ := o
    obtain ⟨operator', start'⟩ := o'
    obtain ⟨rfl, hstart⟩ := hoperator
    exact exprs_unary ih (k.through_eq hstart ih.ranges)

theorem exprs_indexed {indices indices' : List (List IndexEntry × Location)}
    (hindices : List.Forall₂ (fun i i' => List.Forall₂ k.Entries i.1 i'.1 ∧ k.Ranges i.2 i'.2)
      indices indices') (h : k.Exprs e e') :
    k.Exprs (e.indexed indices) (e'.indexed indices') := by
  induction hindices generalizing e e' with
  | nil => exact h
  | @cons i i' _ _ hindex _ ih =>
    obtain ⟨entries, close⟩ := i
    obtain ⟨entries', close'⟩ := i'
    exact ih (exprs_index h hindex.1 (k.through_eq h.ranges hindex.2))

/-- The rows of a matrix come out alike, because where a row ends is told by the separators, which
are the same. -/
theorem forall₂_rowsOf {first first' : Expr} {rest rest' : List (Bool × Expr)}
    (hfirst : k.Exprs first first')
    (hrest : List.Forall₂ (fun v v' => v.1 = v'.1 ∧ k.Exprs v.2 v'.2) rest rest') :
    List.Forall₂ (List.Forall₂ k.Exprs) (Expr.rowsOf first rest) (Expr.rowsOf first' rest') := by
  have hrows : List.Forall₂ k.Exprs (Expr.rowsFrom first rest).1 (Expr.rowsFrom first' rest').1 ∧
      List.Forall₂ (List.Forall₂ k.Exprs) (Expr.rowsFrom first rest).2
        (Expr.rowsFrom first' rest').2 := by
    induction hrest generalizing first first' with
    | nil => exact ⟨.cons hfirst .nil, .nil⟩
    | @cons v v' rest rest' hv _ ih =>
      obtain ⟨opensRow, next⟩ := v
      obtain ⟨opensRow', next'⟩ := v'
      obtain ⟨rfl, hnext⟩ := hv
      obtain ⟨hrow, hrows⟩ := ih hnext
      rw [Expr.rowsFrom, Expr.rowsFrom]
      dsimp only
      split
      · exact ⟨.cons hfirst .nil, .cons hrow hrows⟩
      · exact ⟨.cons hfirst hrow, hrows⟩
  exact .cons hrows.1 hrows.2

/-! ## What stands by itself -/

/-- A name is read off the text of one token, and tokens that are alike have the same text. -/
theorem agree_identifier : k.Agree k.Names identifier identifier := by
  apply agree_bind (agree_expect _)
  intro t u htoken
  apply agree_bind (agree_locationOf htoken)
  intro a b hrange
  apply agree_pure
  unfold Names Identifier.relocate
  dsimp only
  rw [k.text_eq htoken, hrange]

variable {sub sub' : Parser Expr}

theorem agree_expressionList (hsub : k.Agree k.Exprs sub sub') :
    k.Agree (List.Forall₂ k.Exprs) (expressionList sub) (expressionList sub') :=
  agree_separatedBy _ hsub

/-- Both runs see a closing token in the same place, or neither does. -/
theorem agree_expressionsBefore (closing : Kind) (hsub : k.Agree k.Exprs sub sub') :
    k.Agree (List.Forall₂ k.Exprs) (expressionsBefore closing sub)
      (expressionsBefore closing sub') := by
  apply agree_bind (agree_isAt closing)
  rintro isClosing _ rfl
  cases isClosing with
  | true => exact agree_pure .nil
  | false => exact agree_expressionList hsub

theorem agree_matrixElement (hsub : k.Agree k.Exprs sub sub') :
    k.Agree k.Exprs (matrixElement sub) (matrixElement sub') := by
  apply agree_bind agree_pastNewlines
  intro _ _ _
  apply agree_bind hsub
  intro e e' he
  apply agree_bind agree_pastNewlines
  intro _ _ _
  exact agree_pure he

/-- Element by element. Newlines are dropped in both runs, and none of them is part of what is
read. -/
theorem agree_matrix (hsub : k.Agree k.Exprs sub sub') :
    k.Agree k.Exprs (matrix sub) (matrix sub') := by
  apply agree_bind agree_here
  intro start start' hstart
  apply agree_advance_bind
  apply agree_bind (agree_matrixElement hsub)
  intro first first' hfirst
  apply agree_bind (R := List.Forall₂ fun v v' => v.1 = v'.1 ∧ k.Exprs v.2 v'.2)
  · apply agree_many
    intro opensRow t u _
    apply agree_bind (agree_matrixElement hsub)
    intro e e' he
    exact agree_pure ⟨rfl, he⟩
  intro rest rest' hrest
  apply agree_bind (agree_expectOneOf _ _)
  intro _ _ _
  apply agree_bind (agree_rangeFrom hstart)
  intro a b hrange
  exact agree_pure (exprs_matrix (forall₂_rowsOf hfirst hrest) hrange)

/-- Whether a name is a call is told by the token behind it, which is of the same kind in both
runs. -/
theorem agree_identifierOrCall (hsub : k.Agree k.Exprs sub sub') :
    k.Agree k.Exprs (identifierOrCall sub) (identifierOrCall sub') := by
  apply agree_bind agree_here
  intro start start' hstart
  apply agree_bind agree_identifier
  intro id id' hname
  apply agree_accept_bind
  intro accepted
  cases accepted with
  | true =>
    apply agree_bind (agree_expressionsBefore _ hsub)
    intro args args' hargs
    apply agree_bind (agree_expectOneOf _ _)
    intro _ _ _
    apply agree_bind (agree_rangeFrom hstart)
    intro a b hrange
    exact agree_pure (exprs_call hname hargs hrange)
  | false =>
    apply agree_pure
    unfold Exprs
    rw [Expr.relocate, Expr.relocate, hname]

/-- The one place where a range is given to an expression from outside. -/
theorem agree_parenthesised (hsub : k.Agree k.Exprs sub sub') :
    k.Agree k.Exprs (parenthesised sub) (parenthesised sub') := by
  apply agree_bind agree_here
  intro start start' hstart
  apply agree_advance_bind
  apply agree_bind hsub
  intro e e' he
  apply agree_bind (agree_expect _)
  intro _ _ _
  apply agree_bind (agree_rangeFrom hstart)
  intro a b hrange
  exact agree_pure (he.withLocation hrange)

/-- Both runs find the number too large, or neither does, as they have the same digits in front of
them. -/
theorem agree_integerLiteral : k.Agree k.Exprs integerLiteral integerLiteral := by
  apply agree_bind agree_current
  intro t u htoken
  rw [k.text_eq htoken]
  dsimp only
  split
  · exact agree_fail _
  · apply agree_advance_bind
    apply agree_bind (agree_locationOf htoken)
    intro a b hrange
    apply agree_pure
    unfold Exprs
    rw [Expr.relocate, Expr.relocate, hrange]

/-- A literal is made of the text of its token, whatever it makes of it. -/
theorem agree_literal {make : List Char → Location → Expr}
    (h : ∀ text a b, k.Ranges a b → k.Exprs (make text a) (make text b)) :
    k.Agree k.Exprs (literal make) (literal make) := by
  apply agree_bind agree_current
  intro t u htoken
  apply agree_advance_bind
  apply agree_bind (agree_locationOf htoken)
  intro a b hrange
  rw [k.text_eq htoken]
  exact agree_pure (h _ a b hrange)

/-- Both runs branch by the kind of the token at hand, so they take the same branch. -/
theorem agree_primary (hsub : k.Agree k.Exprs sub sub') :
    k.Agree k.Exprs (primary sub) (primary sub') := by
  apply agree_bind agree_current
  intro t u htoken
  rw [k.kind_eq htoken]
  split
  · exact agree_integerLiteral
  · apply agree_literal
    intro text a b hrange
    unfold Exprs
    rw [Expr.relocate, Expr.relocate, hrange]
  · apply agree_literal
    intro text a b hrange
    unfold Exprs
    rw [Expr.relocate, Expr.relocate, hrange]
  · apply agree_literal
    intro text a b hrange
    unfold Exprs
    rw [Expr.relocate, Expr.relocate, hrange]
  · exact agree_identifierOrCall hsub
  · exact agree_parenthesised hsub
  · exact agree_matrix hsub
  · exact agree_fail _

/-! ## Layers -/

theorem agree_indexEntry (hsub : k.Agree k.Exprs sub sub') :
    k.Agree k.Entries (indexEntry sub) (indexEntry sub') := by
  apply agree_bind hsub
  intro first first' hfirst
  apply agree_accept_bind
  intro accepted
  cases accepted with
  | true =>
    apply agree_bind hsub
    intro last last' hlast
    apply agree_pure
    have hrange : k.Ranges _ _ := k.through_eq hfirst.ranges hlast.ranges
    unfold Exprs at hfirst hlast
    unfold Entries
    rw [IndexEntry.relocate, IndexEntry.relocate, hfirst, hlast, hrange]
  | false =>
    apply agree_pure
    have hrange := hfirst.ranges
    unfold Exprs at hfirst
    unfold Entries
    rw [IndexEntry.relocate, IndexEntry.relocate, hfirst, hrange]

/-- The range that an index adds ends at its closing bracket. -/
theorem agree_indexTail (hsub : k.Agree k.Exprs sub sub') :
    k.Agree (fun i i' => List.Forall₂ k.Entries i.1 i'.1 ∧ k.Ranges i.2 i'.2) (indexTail sub)
      (indexTail sub') := by
  apply agree_bind (agree_separatedBy _ (agree_indexEntry hsub))
  intro entries entries' hentries
  apply agree_bind (agree_expectOneOf _ _)
  intro t u htoken
  apply agree_bind (agree_locationOf htoken)
  intro a b hrange
  exact agree_pure ⟨hentries, hrange⟩

theorem agree_indexed (hsub : k.Agree k.Exprs sub sub') :
    k.Agree k.Exprs (indexed sub) (indexed sub') := by
  apply agree_bind (agree_primary hsub)
  intro base base' hbase
  apply agree_bind (agree_manyAfter _ fun _ _ _ => agree_indexTail hsub)
  intro indices indices' hindices
  exact agree_pure (exprs_indexed hindices hbase)

/-- The operators in front are read first, with the place of each. -/
theorem agree_unary (hsub : k.Agree k.Exprs sub sub') :
    k.Agree k.Exprs (unary sub) (unary sub') := by
  apply agree_bind (R := List.Forall₂ fun o o' => o.1 = o'.1 ∧ k.Ranges o.2 o'.2)
  · apply agree_many
    intro operator t u htoken
    apply agree_bind (agree_locationOf htoken)
    intro a b hrange
    exact agree_pure ⟨rfl, hrange⟩
  intro operators operators' hoperators
  apply agree_bind (agree_indexed hsub)
  intro e e' he
  exact agree_pure (exprs_applied hoperators he)

/-- Operators with the operands behind them. An operator goes by the kind of its token alone. -/
theorem agree_rightSides (operator? : Kind → Option BinaryOperator)
    (hsub : k.Agree k.Exprs sub sub') :
    k.Agree (List.Forall₂ (Sides (k := k))) (rightSides operator? sub)
      (rightSides operator? sub') := by
  apply agree_many
  intro operator t u _
  apply agree_bind hsub
  intro e e' he
  exact agree_pure ⟨rfl, he⟩

theorem agree_power (hsub : k.Agree k.Exprs sub sub') :
    k.Agree k.Exprs (power sub) (power sub') := by
  apply agree_bind (agree_unary hsub)
  intro first first' hfirst
  apply agree_bind (agree_rightSides _ (agree_unary hsub))
  intro rest rest' hrest
  exact agree_pure (exprs_joinRight hfirst hrest)

theorem agree_leftAssociative (operator? : Kind → Option BinaryOperator)
    (hsub : k.Agree k.Exprs sub sub') :
    k.Agree k.Exprs (leftAssociative operator? sub) (leftAssociative operator? sub') := by
  apply agree_bind hsub
  intro first first' hfirst
  apply agree_bind (agree_rightSides _ hsub)
  intro rest rest' hrest
  exact agree_pure (exprs_joinLeft hfirst hrest)

/-- Layer by layer, from the tightest operators to the loosest. -/
theorem agree_layers (hsub : k.Agree k.Exprs sub sub') :
    k.Agree k.Exprs (layers sub) (layers sub') := by
  unfold layers
  induction leftAssociativeLevels with
  | nil => exact agree_power hsub
  | cons operator? levels ih => exact agree_leftAssociative operator? ih

/-- By induction on the depth that is left. At no depth both runs complain of the token at hand. -/
theorem agree_expressionWithin (levels : Nat) :
    k.Agree k.Exprs (expressionWithin levels) (expressionWithin levels) := by
  induction levels with
  | zero => exact agree_fail _
  | succ levels ih => exact agree_layers ih

theorem agree_expression : k.Agree k.Exprs expression expression :=
  agree_expressionWithin maxNesting

end Likeness

end Cqasm
