import Cqasm.Proofs.Agreement.Expression
import Cqasm.Reader.Statement

/-!
# Agreement on statements

Rows of tokens that are alike are read as statements that are alike (`Likeness.agree_statement`).
Where one of two such rows is broken, so is the other, with the same complaint about a token that is
alike, and both go on in front of rows that are alike again (`Likeness.recoveries`).
-/

set_option autoImplicit false

namespace Cqasm

/-- Two things that need not be there are alike if both are missing or both are there and alike. -/
theorem optionMap_eq_of_rel {α β γ : Type} {f : α → γ} {g : β → γ} {x : Option α} {y : Option β}
    (h : Option.Rel (fun x y => f x = g y) x y) : x.map f = y.map g := by
  cases h with
  | none => rfl
  | some h => exact congrArg some h

/-- Items that are missing are missing in both rows, so what is left is alike place by place. -/
theorem forall₂_filterMap_id {α β : Type} {R : α → β → Prop} {xs : List (Option α)}
    {ys : List (Option β)} (h : List.Forall₂ (Option.Rel R) xs ys) :
    List.Forall₂ R (xs.filterMap id) (ys.filterMap id) := by
  induction h with
  | nil => exact .nil
  | cons hx _ ih =>
    cases hx with
    | none => exact ih
    | some hx => exact .cons hx ih

namespace Likeness

open Cqasm.Parser

variable {file file' : String} (k : Likeness file file')

/-- Annotations are alike if they are the same once their ranges are. -/
def Annots (a b : Annot) : Prop :=
  a.relocate k.left = b.relocate k.right

/-- The same for instructions. -/
def Instructions (i j : Instruction) : Prop :=
  i.relocate k.left = j.relocate k.right

/-- The same for statements. -/
def Statements (s t : Statement) : Prop :=
  s.relocate k.left = t.relocate k.right

variable {k} {a b : Location}

/-! ## Parts of statements -/

/-- Parentheses are there in both runs or in neither. -/
theorem agree_optionalOperands :
    k.Agree (List.Forall₂ k.Exprs) optionalOperands optionalOperands := by
  apply agree_accept_bind
  intro accepted
  cases accepted with
  | true =>
    apply agree_bind (agree_expressionsBefore _ agree_expression)
    intro operands operands' hoperands
    apply agree_bind (agree_expect _)
    intro _ _ _
    exact agree_pure hoperands
  | false => exact agree_pure .nil

/-- The sign in front of an annotation has been passed already; its place is where the range
starts. -/
theorem agree_annotTail {t u : Token} (htoken : k.like t u) :
    k.Agree k.Annots (annotTail t) (annotTail u) := by
  apply agree_bind (agree_locationOf htoken)
  intro start start' hstart
  apply agree_bind agree_identifier
  intro interface interface' hinterface
  apply agree_bind (agree_expect _)
  intro _ _ _
  apply agree_bind agree_identifier
  intro operation operation' hoperation
  apply agree_bind agree_optionalOperands
  intro operands operands' hoperands
  apply agree_bind (agree_rangeFrom hstart)
  intro a b hrange
  apply agree_pure
  unfold Names at hinterface hoperation
  unfold Annots Annot.relocate
  rw [hinterface, hoperation, hrange, map_eq_of_forall₂ hoperands]

theorem agree_annotations : k.Agree (List.Forall₂ k.Annots) annotations annotations :=
  agree_manyAfter _ fun _ _ => agree_annotTail

theorem agree_operandsAfterComma :
    k.Agree (List.Forall₂ k.Exprs) operandsAfterComma operandsAfterComma := by
  apply agree_accept_bind
  intro accepted
  cases accepted with
  | true => exact agree_expressionList agree_expression
  | false => exact agree_pure .nil

/-- Whether an operand follows is told by the kind of the token at hand. -/
theorem agree_plainOperands :
    k.Agree (List.Forall₂ k.Exprs) plainOperands plainOperands := by
  apply agree_bind agree_current
  intro t u htoken
  rw [k.kind_eq htoken]
  split
  · exact agree_expressionList agree_expression
  · exact agree_pure .nil

theorem agree_conditionalInstruction (hstart : k.Ranges a b) :
    k.Agree k.Instructions (conditionalInstruction a) (conditionalInstruction b) := by
  apply agree_bind agree_identifier
  intro name name' hname
  apply agree_bind agree_expression
  intro condition condition' hcondition
  apply agree_bind agree_operandsAfterComma
  intro operands operands' hoperands
  apply agree_bind agree_annotations
  intro annots annots' hannots
  apply agree_bind (agree_rangeFrom hstart)
  intro range range' hrange
  apply agree_pure
  unfold Names at hname
  unfold Exprs at hcondition
  unfold Instructions Instruction.relocate
  rw [hname, hrange, map_eq_of_forall₂ hoperands, map_eq_of_forall₂ hannots, Option.map_some,
    Option.map_some, hcondition]

theorem agree_plainInstruction (hstart : k.Ranges a b) :
    k.Agree k.Instructions (plainInstruction a) (plainInstruction b) := by
  apply agree_bind agree_identifier
  intro name name' hname
  apply agree_bind agree_plainOperands
  intro operands operands' hoperands
  apply agree_bind agree_annotations
  intro annots annots' hannots
  apply agree_bind (agree_rangeFrom hstart)
  intro range range' hrange
  apply agree_pure
  unfold Names at hname
  unfold Instructions Instruction.relocate
  rw [hname, hrange, map_eq_of_forall₂ hoperands, map_eq_of_forall₂ hannots]
  rfl

/-- Both runs see the prefix of a condition, or neither does. -/
theorem agree_instruction : k.Agree k.Instructions instruction instruction := by
  apply agree_bind agree_here
  intro start start' hstart
  apply agree_accept_bind
  intro accepted
  cases accepted with
  | true => exact agree_conditionalInstruction hstart
  | false => exact agree_plainInstruction hstart

/-! ## Bundles -/

theorem statements_bundle {is js : List Instruction} (h : List.Forall₂ k.Instructions is js)
    (hrange : k.Ranges a b) : k.Statements (.bundle is a) (.bundle js b) := by
  unfold Statements
  rw [Statement.relocate, Statement.relocate, hrange, map_eq_of_forall₂ h]

theorem agree_bundle : k.Agree k.Statements bundle bundle := by
  apply agree_bind agree_here
  intro start start' hstart
  apply agree_bind (agree_separatedBy _ agree_instruction)
  intro items items' hitems
  apply agree_bind (agree_rangeFrom hstart)
  intro a b hrange
  exact agree_pure (statements_bundle hitems hrange)

/-- A separator in front of the closing brace ends the bundle in both runs. -/
theorem agree_bundleItem (joint : BundleJoint) :
    k.Agree (Option.Rel k.Instructions) (bundleItem joint) (bundleItem joint) := by
  apply agree_bind agree_pastSeparators
  intro _ _ _
  apply agree_bind (agree_isAt _)
  rintro isOver _ rfl
  split
  · exact agree_pure .none
  · apply agree_bind agree_instruction
    intro i j h
    exact agree_pure (.some h)

/-- Where the text ends inside of braces, both runs complain that there is no instruction. -/
theorem agree_bundleEnd : k.Agree (· = ·) bundleEnd bundleEnd := by
  apply agree_bind (agree_isAt _)
  rintro isEnd _ rfl
  split
  · exact agree_fail _
  · apply agree_bind (agree_expect _)
    intro _ _ _
    exact agree_pure rfl

theorem agree_bracedItems :
    k.Agree (List.Forall₂ k.Instructions) bracedItems bracedItems := by
  apply agree_bind agree_pastSeparators
  intro _ _ _
  apply agree_bind agree_instruction
  intro first first' hfirst
  apply agree_bind (agree_many fun joint _ _ _ => agree_bundleItem joint)
  intro rest rest' hrest
  apply agree_bind agree_bundleEnd
  intro _ _ _
  exact agree_pure (.cons hfirst (forall₂_filterMap_id hrest))

/-- Whichever brace a failure leaves open in one run it leaves open in the other. -/
theorem agree_bracedBundle : k.Agree k.Statements bracedBundle bracedBundle := by
  apply agree_bind agree_here
  intro start start' hstart
  apply agree_advance_bind
  apply agree_bind (agree_insideBraces agree_bracedItems)
  intro items items' hitems
  apply agree_bind (agree_rangeFrom hstart)
  intro a b hrange
  exact agree_pure (statements_bundle hitems hrange)

/-! ## Statements with a keyword -/

/-- Expressions that are alike are both names or neither. -/
theorem Exprs.names_or {e e' : Expr} (h : k.Exprs e e') :
    (∃ id id', e = .identifier id ∧ e' = .identifier id' ∧ k.Names id id') ∨
      ((∀ id, e ≠ .identifier id) ∧ ∀ id, e' ≠ .identifier id) := by
  unfold Exprs at h
  -- Relocation keeps the constructor, so two expressions of different ones are not alike.
  cases e <;> cases e' <;> simp only [Expr.relocate, reduceCtorEq] at h <;>
    first
    | exact .inl ⟨_, _, rfl, rfl, Expr.identifier.inj h⟩
    | exact .inr ⟨by simp, by simp⟩

/-- Whether something is an alias depends on what has been read, not on the tokens. So this is about
two expressions that are alike. -/
theorem agree_assignedName {e e' : Expr} (h : k.Exprs e e') :
    k.Agree (Option.Rel k.Names) (assignedName e) (assignedName e') := by
  rcases h.names_or with ⟨id, id', rfl, rfl, hname⟩ | ⟨hname, hname'⟩
  · apply agree_accept_bind
    intro accepted
    cases accepted with
    | true => exact agree_pure (.some hname)
    | false => exact agree_pure .none
  · unfold assignedName
    split
    · exact absurd rfl (hname _)
    · exact agree_pure .none

theorem statements_mapping {target target' : Identifier} {e e' : Expr} {annots annots' : List Annot}
    (htarget : k.Names target target') (he : k.Exprs e e')
    (hannots : List.Forall₂ k.Annots annots annots') (hrange : k.Ranges a b) :
    k.Statements (.mapping target e annots a) (.mapping target' e' annots' b) := by
  unfold Names at htarget
  unfold Exprs at he
  unfold Statements
  rw [Statement.relocate, Statement.relocate, htarget, he, hrange, map_eq_of_forall₂ hannots]

/-- The two spellings of a mapping part behind the first expression, at the same token. -/
theorem agree_mapping : k.Agree k.Statements mapping mapping := by
  apply agree_bind agree_here
  intro start start' hstart
  apply agree_advance_bind
  apply agree_bind agree_expression
  intro first first' hfirst
  apply agree_bind (agree_assignedName hfirst)
  intro name name' hname
  -- Whether the first thing is a name alone is seen alike, so both sides go on with the same form.
  cases hname with
  | some htarget =>
    apply agree_bind agree_expression
    intro e e' he
    apply agree_bind agree_annotations
    intro annots annots' hannots
    apply agree_bind (agree_rangeFrom hstart)
    intro a b hrange
    exact agree_pure (statements_mapping htarget he hannots hrange)
  | none =>
    apply agree_bind (agree_expectOneOf _ _)
    intro _ _ _
    apply agree_bind agree_identifier
    intro target target' htarget
    apply agree_bind agree_annotations
    intro annots annots' hannots
    apply agree_bind (agree_rangeFrom hstart)
    intro a b hrange
    exact agree_pure (statements_mapping htarget hfirst hannots hrange)

theorem agree_declaration : k.Agree k.Statements declaration declaration := by
  apply agree_bind agree_here
  intro start start' hstart
  apply agree_advance_bind
  apply agree_bind (agree_separatedBy _ agree_identifier)
  intro names names' hnames
  apply agree_bind (agree_expectOneOf _ _)
  intro _ _ _
  apply agree_bind agree_identifier
  intro type type' htype
  apply agree_bind agree_annotations
  intro annots annots' hannots
  apply agree_bind (agree_rangeFrom hstart)
  intro a b hrange
  apply agree_pure
  unfold Names at htype
  unfold Statements
  rw [Statement.relocate, Statement.relocate, htype, hrange, map_eq_of_forall₂ hnames,
    map_eq_of_forall₂ hannots]

theorem agree_optionalIterations :
    k.Agree (Option.Rel k.Exprs) optionalIterations optionalIterations := by
  apply agree_accept_bind
  intro accepted
  cases accepted with
  | true =>
    apply agree_bind agree_expression
    intro e e' he
    apply agree_bind (agree_expect _)
    intro _ _ _
    exact agree_pure (.some he)
  | false => exact agree_pure .none

theorem agree_subcircuit : k.Agree k.Statements subcircuit subcircuit := by
  apply agree_bind agree_here
  intro start start' hstart
  apply agree_advance_bind
  apply agree_bind agree_identifier
  intro name name' hname
  apply agree_bind agree_optionalIterations
  intro iterations iterations' hiterations
  apply agree_bind agree_annotations
  intro annots annots' hannots
  apply agree_bind (agree_rangeFrom hstart)
  intro a b hrange
  apply agree_pure
  unfold Names at hname
  unfold Statements
  rw [Statement.relocate, Statement.relocate, hname, hrange, optionMap_eq_of_rel hiterations,
    map_eq_of_forall₂ hannots]

theorem agree_errorModel : k.Agree k.Statements errorModel errorModel := by
  apply agree_bind agree_here
  intro start start' hstart
  apply agree_advance_bind
  apply agree_bind agree_identifier
  intro name name' hname
  apply agree_bind (agree_manyAfter _ fun _ _ _ => agree_expression)
  intro args args' hargs
  apply agree_bind agree_annotations
  intro annots annots' hannots
  apply agree_bind (agree_rangeFrom hstart)
  intro a b hrange
  apply agree_pure
  unfold Names at hname
  unfold Statements
  rw [Statement.relocate, Statement.relocate, hname, hrange, map_eq_of_forall₂ hargs,
    map_eq_of_forall₂ hannots]

/-! ## Any statement -/

/-- One case for each keyword. All other kinds fail in the same way. -/
theorem agree_statementAt (kind : Kind) :
    k.Agree k.Statements (statementAt kind) (statementAt kind) := by
  unfold statementAt
  split
  · exact agree_mapping
  · exact agree_declaration
  · exact agree_subcircuit
  · exact agree_errorModel
  · exact agree_bracedBundle
  · exact agree_bundle
  · exact agree_bundle
  · exact agree_fail _

/-- A statement is picked by the kind of its first token. -/
theorem agree_statement : k.Agree k.Statements statement statement := by
  apply agree_bind agree_current
  intro t u htoken
  rw [k.kind_eq htoken]
  exact agree_statementAt _

theorem agree_terminated {α β : Type} {R : α → β → Prop} {p : Parser α} {q : Parser β}
    (h : k.Agree R p q) : k.Agree R (terminated p) (terminated q) := by
  apply agree_bind h
  intro v w hvalue
  apply agree_bind agree_statementEnd
  intro _ _ _
  exact agree_pure hvalue

/-! ## Recovery -/

variable (k) in
/-- Complaints are alike if they are the same and about tokens that are alike. -/
inductive Complaints : Diagnostic → Diagnostic → Prop
  | misplaced {t u : Token} {complaint : Complaint} :
      k.like t u → Complaints (.misplaced t complaint) (.misplaced u complaint)

variable (k) in
/-- What was read where reading may fail is alike if the values are, the complaints, and the cursors
behind. -/
structure Recoveries {α β : Type} (R : α → β → Prop) (r : Recovered α) (r' : Recovered β) :
    Prop where
  value : R r.value r'.value
  error : Option.Rel k.Complaints r.error r'.error
  cursor : k.Cursors r.cursor r'.cursor

/-- Recovery skips the same number of tokens in both runs, since the failures leave the same number
of braces open. -/
theorem recoveries {α β : Type} {R : α → β → Prop} {p : Parser α} {q : Parser β}
    {placeholder : Location → α} {placeholder' : Location → β} (h : k.Agree R p q)
    (hplaceholder : ∀ a b, k.Ranges a b → R (placeholder a) (placeholder' b)) {c d : Cursor}
    (hcursors : k.Cursors c d) :
    k.Recoveries R (p.recover placeholder file c) (q.recover placeholder' file' d) := by
  have houtcomes := h c d hcursors
  unfold Parser.recover
  generalize p.run file c = outcome, q.run file' d = outcome' at houtcomes ⊢
  cases houtcomes with
  | ok hvalue hbehind => exact ⟨hvalue, .none, hbehind⟩
  | failed hstuck =>
    refine ⟨hplaceholder _ _ ?_, .some (.misplaced hstuck.current), hstuck.skipStatement _⟩
    exact (hstuck.skipStatement _).rangeFrom (k.location_eq hcursors.current)

/-- A placeholder is nothing but its range. -/
theorem statements_erroneous (a b : Location) (h : k.Ranges a b) :
    k.Statements (.erroneous a) (.erroneous b) := by
  unfold Statements
  rw [Statement.relocate, Statement.relocate, h]

end Likeness

end Cqasm
