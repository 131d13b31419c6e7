import Cqasm.Proofs.Grammar.Levels
import Cqasm.Proofs.Recognition.Statement
import Cqasm.Proofs.Recovery.Extent
import Cqasm.Proofs.Tree.Children
import Cqasm.Proofs.Tree.Placeholders

/-!
# Every part of a tree has a row

Whatever part of a tree a row of tokens stands for (`IsNode`), its children stand for rows inside of
it, one behind the other (`Spread`, `IsNode.spread`). Only the name that is mapped to may be written
behind what is mapped, although it comes first in the tree.

In an expression the rows of the children are found by the productions, level by level. All that is
asked of the expressions inside is that the same is known of them.
-/

set_option autoImplicit false

namespace Cqasm.Grammar

/-! ## Rows inside a row -/

/-- Parts whose rows stand one behind the other in a row of tokens, whatever is between them. -/
inductive Spread (item : Phrase Node) : List Token → List Node → Prop
  | nil {ts : List Token} : Spread item ts []
  | cons {before row ts : List Token} {node : Node} {nodes : List Node} :
      item row node → Spread item ts nodes → Spread item (before ++ (row ++ ts)) (node :: nodes)

namespace Spread

variable {item : Phrase Node} {row ts us : List Token} {node : Node} {nodes nodes' : List Node}

theorem behind (before : List Token) (h : Spread item ts nodes) :
    Spread item (before ++ ts) nodes := by
  cases h with
  | nil => exact .nil
  | cons hrow hrest =>
    rw [← List.append_assoc]
    exact .cons hrow hrest

theorem marked (mark : Token) (h : Spread item ts nodes) : Spread item (mark :: ts) nodes :=
  h.behind [mark]

/-- Two rows, one behind the other, have the parts of both. -/
theorem append (h : Spread item ts nodes) (h' : Spread item us nodes') :
    Spread item (ts ++ us) (nodes ++ nodes') := by
  induction h with
  | nil => exact h'.behind _
  | cons hrow _ ih =>
    rw [List.append_assoc, List.append_assoc]
    exact .cons hrow ih

/-- Nor do tokens behind all parts. -/
theorem ahead (behind : List Token) (h : Spread item ts nodes) :
    Spread item (ts ++ behind) nodes := by
  have hnone : Spread item behind [] := .nil
  simpa using h.append hnone

/-- One part more, right in front of the others. -/
theorem next (h : item row node) (h' : Spread item ts nodes) :
    Spread item (row ++ ts) (node :: nodes) := by
  have hrow : Spread item ([] ++ (row ++ ts)) (node :: nodes) := .cons h h'
  exact hrow

theorem single (h : item row node) : Spread item row [node] := by
  have hrow : Spread item (row ++ []) [node] := next h .nil
  rwa [List.append_nil] at hrow

/-- Each part has a row of its own. -/
theorem exists_row (h : Spread item ts nodes) (hmem : node ∈ nodes) :
    ∃ row, row <:+: ts ∧ item row node := by
  induction h with
  | nil => cases hmem
  | @cons before row ts first nodes hrow _ ih =>
    rcases List.mem_cons.1 hmem with rfl | hmem
    · exact ⟨row, ⟨before, ts, List.append_assoc ..⟩, hrow⟩
    · obtain ⟨row', hinside, hrow'⟩ := ih hmem
      refine ⟨row', hinside.trans ?_, hrow'⟩
      rw [← List.append_assoc]
      exact (List.suffix_append ..).isInfix

end Spread

/-- The values of a phrase have parts whose rows stand one behind the other in the row of the
value. -/
def Spreads {α : Type} (item : Phrase Node) (phrase : Phrase α) (parts : α → List Node) : Prop :=
  ∀ ⦃ts v⦄, phrase ts v → Spread item ts (parts v)

namespace Spreads

variable {α : Type} {item : Phrase Node} {phrase : Phrase α} {parts : α → List Node} {mark : Kind}

theorem single {toNode : α → Node} (h : ∀ ⦃ts v⦄, phrase ts v → item ts (toNode v)) :
    Spreads item phrase fun v => [toNode v] :=
  fun _ _ hv => .single (h hv)

theorem behind (h : Spreads item phrase parts) : Spreads item (Behind mark phrase) parts := by
  rintro _ _ ⟨-, hv⟩
  exact (h hv).marked _

/-- Parts of the items of a row come one item after the other. -/
theorem many (h : Spreads item phrase parts) :
    Spreads item (Many phrase) fun vs => vs.flatMap parts := by
  intro ts vs hvs
  induction hvs with
  | nil => exact .nil
  | cons hv _ ih => exact (h hv).append ih

theorem separatedBy (h : Spreads item phrase parts) :
    Spreads item (SeparatedBy mark phrase) fun vs => vs.flatMap parts := by
  rintro _ _ ⟨hv, hvs⟩
  exact (h hv).append (h.behind.many hvs)

/-- A list that is empty has no parts. -/
theorem listed (h : Spreads item phrase parts) :
    Spreads item (Listed phrase) fun vs => vs.flatMap parts := by
  rintro _ _ (_ | hvs)
  · exact .nil
  · exact h.separatedBy hvs

/-- Parts that come one by one are a list of parts. -/
theorem map {phrase : Phrase (List α)} {toNode : α → Node}
    (h : Spreads item phrase fun vs => vs.flatMap fun v => [toNode v]) :
    Spreads item phrase (List.map toNode) := by
  intro ts vs hvs
  rw [List.map_eq_flatMap]
  exact h hvs

end Spreads

/-! ## Expressions -/

/-- Parentheses have no say in what the children are. -/
theorem children_withLocation (e : Expr) (location : Location) :
    (Node.expr (e.withLocation location)).children = (Node.expr e).children := by
  cases e <;> rfl

section

variable {file : String} {sub : Phrase Expr} {item : Phrase Node}

/-- What is asked of the names, index entries and expressions inside an expression. -/
structure Inside (file : String) (sub : Phrase Expr) (item : Phrase Node) : Prop where
  name : ∀ ⦃ts id⦄, IsName file ts id → item ts (.expr (.identifier id))
  entry : ∀ ⦃ts entry⦄, IsEntry sub ts entry → item ts (.entry entry)
  expr : ∀ ⦃ts e⦄, sub ts e → item ts (.expr e)
  children : Spreads item sub fun e => (Node.expr e).children

theorem spreads_element (h : Inside file sub item) :
    Spreads item (IsElement sub) fun e => [.expr e] := by
  rintro _ _ ⟨-, he, -⟩
  exact ((Spread.single (h.expr he)).behind _).ahead _

/-- Calls, parentheses and matrices are the only ones with expressions in them; the rest are
leaves. -/
theorem spreads_primary (h : Inside file sub item) :
    Spreads item (IsPrimary file sub) fun e => (Node.expr e).children := by
  intro ts e he
  dsimp only
  cases he with
  | integer | float | string | json | name => exact .nil
  | @call ts us opening closing id args hname _ hargs _ =>
    have hspread := (Spreads.single h.expr).listed.map hargs
    rw [Node.children_call]
    exact .next (h.name hname) ((hspread.ahead [closing]).marked opening)
  | @parenthesised ts opening closing e _ he _ =>
    rw [children_withLocation]
    exact ((h.children he).ahead [closing]).marked opening
  | @matrix ts opening closing rows _ hrows _ =>
    have hspread := (spreads_element h).separatedBy.separatedBy hrows
    simp only [← List.map_eq_flatMap] at hspread
    rw [Node.children_matrix, List.map_flatten, ← List.flatMap_def]
    exact (hspread.ahead [closing]).marked opening

/-- The last index comes behind everything that it is an index of. -/
theorem spreads_postfix (h : Inside file sub item)
    (hself : ∀ ⦃ts e⦄, IsPostfix file sub ts e → item ts (.expr e)) :
    Spreads item (IsPostfix file sub) fun e => (Node.expr e).children := by
  intro ts e he
  dsimp only
  cases he with
  | primary he => exact spreads_primary h he
  | @index ts us opening closing e entries he _ hentries _ =>
    have hspread := (Spreads.single h.entry).separatedBy.map hentries
    rw [Node.children_index]
    exact .next (hself he) ((hspread.ahead [closing]).marked opening)

theorem spreads_unary (h : Inside file sub item)
    (hself : ∀ ⦃ts e⦄, IsUnary file sub ts e → item ts (.expr e)) :
    Spreads item (IsUnary file sub) fun e => (Node.expr e).children := by
  intro ts e he
  cases he with
  | indexed he => exact spreads_postfix h (fun _ _ he => hself (.indexed he)) he
  | @operator ts sign operator e _ he => exact (Spread.single (hself he)).marked sign

/-- The exponent, with all that it has, comes behind the base. -/
theorem spreads_power (h : Inside file sub item)
    (hself : ∀ ⦃ts e⦄, IsPower file sub ts e → item ts (.expr e)) :
    Spreads item (IsPower file sub) fun e => (Node.expr e).children := by
  intro ts e he
  cases he with
  | operand he => exact spreads_unary h (fun _ _ he => hself (.operand he)) he
  | @operator ts us sign lhs rhs hlhs _ hrhs =>
    exact .next (hself (.operand hlhs)) ((Spread.single (hself hrhs)).marked sign)

/-- The last operand comes behind all the others. -/
theorem spreads_chain {operators : List (Kind × BinaryOperator)} {operand : Phrase Expr}
    (hoperand : Spreads item operand fun e => (Node.expr e).children)
    (hself : ∀ ⦃ts e⦄, IsChain operators operand ts e → item ts (.expr e)) :
    Spreads item (IsChain operators operand) fun e => (Node.expr e).children := by
  intro ts e he
  cases he with
  | operand he => exact hoperand he
  | @operator ts us sign operator lhs rhs hlhs _ hrhs =>
    exact .next (hself hlhs) ((Spread.single (hself (.operand hrhs))).marked sign)

/-- By induction on the levels; each is a chain over the tighter ones, so that the operands of one
are parts as well. -/
theorem spreads_layered (h : Inside file sub item)
    (hself : ∀ ⦃ts e⦄, IsLayered file sub ts e → item ts (.expr e)) :
    Spreads item (IsLayered file sub) fun e => (Node.expr e).children := by
  unfold IsLayered at hself ⊢
  generalize leftLevels = levels at hself ⊢
  induction levels with
  | nil => exact spreads_power h hself
  | cons _ _ ih => exact spreads_chain (ih fun _ _ he => hself (.operand he)) hself

end

/-! ## Nodes -/

variable {file : String} {ts : List Token}

/-- What a row of tokens stands for, whatever part of a tree it is. A row that is none of the others
may stand for a placeholder. -/
inductive IsNode (file : String) : Phrase Node
  | expr {ts : List Token} {e : Expr} : IsExpr file ts e → IsNode file ts (.expr e)
  | entry {ts : List Token} {entry : IndexEntry} :
      IsEntry (IsExpr file) ts entry → IsNode file ts (.entry entry)
  | annot {ts : List Token} {a : Annot} : IsAnnot file ts a → IsNode file ts (.annot a)
  | instruction {ts : List Token} {i : Instruction} :
      IsInstruction file ts i → IsNode file ts (.instruction i)
  | statement {ts : List Token} {s : Statement} :
      IsStatement file ts s → IsNode file ts (.statement s)
  | version {keyword number : Token} {items : List VersionItem} :
      keyword.kind = .version → number.kind = .versionNumber →
      IsNode file [keyword, number]
        (.version { items, location := rangeOf file [keyword, number] })
  | brokenExpr {first : Token} {ts : List Token} :
      first.kind.isSeparator = false →
      IsNode file (first :: ts) (.expr (.erroneous (rangeOf file (first :: ts))))
  | brokenStatement {first : Token} {ts : List Token} :
      first.kind.isSeparator = false →
      IsNode file (first :: ts) (.statement (.erroneous (rangeOf file (first :: ts))))

theorem isNode_name {id : Identifier} (h : IsName file ts id) :
    IsNode file ts (.expr (.identifier id)) :=
  .expr (Parser.isLayered_of_isPrimary (.name h))

/-- What is assigned to is read as an expression, so it is a part like any other expression. -/
theorem isNode_target {id : Identifier} (h : IsTarget file maxNesting ts id) :
    IsNode file ts (.expr (.identifier id)) :=
  .expr (Parser.isExpression_identifier_iff.2 h)

theorem spreads_name : Spreads (IsNode file) (IsName file) fun id => [.expr (.identifier id)] :=
  .single fun _ _ => isNode_name

theorem spreads_expr : Spreads (IsNode file) (IsExpr file) fun e => [.expr e] :=
  .single fun _ _ => .expr

theorem spreads_annotations :
    Spreads (IsNode file) (Many (IsAnnot file)) (List.map .annot) :=
  have hsingle : Spreads (IsNode file) (IsAnnot file) fun a => [.annot a] :=
    .single fun _ _ => .annot
  hsingle.many.map

/-- An expression at any depth up to the limit. -/
theorem spreads_expression {levels : Nat} (hle : levels ≤ maxNesting) :
    Spreads (IsNode file) (IsExpression file levels) fun e => (Node.expr e).children := by
  induction levels with
  | zero => exact fun _ _ h => h.elim
  | succ levels ih =>
    have hinner : levels ≤ maxNesting := Nat.le_of_succ_le hle
    refine spreads_layered ⟨fun _ _ => isNode_name, fun _ _ h => ?_, fun _ _ h => ?_, ih hinner⟩
      fun _ _ h => .expr (isExpression_mono hle h)
    · exact .entry (h.mono fun _ _ => isExpression_mono hinner)
    · exact .expr (isExpression_mono hinner h)

theorem spreads_entry :
    Spreads (IsNode file) (IsEntry (IsExpr file)) fun e => (Node.entry e).children := by
  intro ts entry h
  dsimp only
  rw [Node.children_entry]
  cases h with
  | item he => exact .single (.expr he)
  | range hfirst _ hlast =>
    exact .next (.expr hfirst) ((Spread.single (.expr hlast)).marked _)

/-- The two names of an annotation, and its operands. -/
theorem spreads_annot : Spreads (IsNode file) (IsAnnot file) fun a => (Node.annot a).children := by
  intro ts a h
  dsimp only
  rw [Node.children_annot]
  cases h with
  | plain _ hinterface _ hoperation =>
    exact (Spread.next (isNode_name hinterface)
      ((Spread.single (isNode_name hoperation)).marked _)).marked _
  | @applied sign dot opening closing _ _ _ _ _ _ _ hinterface _ hoperation _ hoperands =>
    have hspread := spreads_expr.listed.map hoperands
    have hinner := Spread.next (isNode_name hoperation) ((hspread.ahead [closing]).marked opening)
    exact (Spread.next (isNode_name hinterface) (hinner.marked dot)).marked sign

theorem spreads_operands :
    Spreads (IsNode file) (Many (Behind .comma (IsExpr file))) (List.map .expr) :=
  spreads_expr.behind.many.map

/-- The condition of an instruction is written behind the name of the gate, as it is visited. -/
theorem spreads_instruction :
    Spreads (IsNode file) (IsInstruction file) fun i => (Node.instruction i).children := by
  intro ts i h
  dsimp only
  rw [Node.children_instruction]
  cases h with
  | plain hname hoperands hannotations =>
    have hspread := spreads_expr.listed.map hoperands
    exact .next (isNode_name hname) (hspread.append (spreads_annotations hannotations))
  | @conditional mark _ _ _ _ _ _ _ _ _ hname hcondition hoperands hannotations =>
    have hspread := (spreads_operands hoperands).append (spreads_annotations hannotations)
    exact (Spread.next (isNode_name hname) (.next (.expr hcondition) hspread)).marked mark

/-- Joints between instructions are no parts. -/
theorem spreads_braced :
    Spreads (IsNode file) (IsBraced file) (List.map .instruction) := by
  intro ts items h
  induction h with
  | last hi => exact .single (.instruction hi)
  | bar hi _ _ _ ih => exact .next (.instruction hi) ((ih.behind _).marked _)
  | separated hi _ _ ih => exact .next (.instruction hi) (ih.behind _)

/-- The parts of a statement are written in the order in which they are visited, except for what a
mapping behind its expression maps to. -/
theorem exists_spread_statement {s : Statement} (h : IsStatement file ts s) :
    ∃ nodes, nodes.Perm (Node.statement s).children ∧ Spread (IsNode file) ts nodes ∧
      (s.kind ≠ .mapping → nodes = (Node.statement s).children) := by
  cases h with
  | @assignment keyword sign ts us vs target e annots _ htarget _ he hannots =>
    refine ⟨_, .refl _, ?_, fun _ => rfl⟩
    rw [Node.children_mapping]
    have hinner := Spread.next (.expr he) (spreads_annotations hannots)
    exact (Spread.next (isNode_target htarget) (hinner.marked sign)).marked keyword
  -- Here alone the order of the text is not the order of the children.
  | @mapping keyword comma ts us vs target e annots _ he _ htarget hannots =>
    rw [Node.children_mapping]
    refine ⟨.expr e :: .expr (.identifier target) :: annots.map .annot, .swap .., ?_,
      fun hkind => absurd rfl hkind⟩
    have hinner := Spread.next (isNode_name htarget) (spreads_annotations hannots)
    exact (Spread.next (.expr he) (hinner.marked comma)).marked keyword
  | @declaration keyword colon ts us vs names type annots _ hnames _ htype hannots =>
    refine ⟨_, .refl _, ?_, fun _ => rfl⟩
    rw [Node.children_declaration]
    have hspread := spreads_name.separatedBy.map hnames
    have hinner := Spread.next (isNode_name htype) (spreads_annotations hannots)
    exact (hspread.append (hinner.marked colon)).marked keyword
  | @subcircuit dot ts vs name annots _ hname hannots =>
    refine ⟨_, .refl _, ?_, fun _ => rfl⟩
    rw [Node.children_subcircuit]
    exact (Spread.next (isNode_name hname) (spreads_annotations hannots)).marked dot
  | @iteratedSubcircuit dot opening closing ts us vs name iterations annots _ hname _ he _
      hannots =>
    refine ⟨_, .refl _, ?_, fun _ => rfl⟩
    rw [Node.children_subcircuit]
    have hinner := Spread.next (.expr he) ((spreads_annotations hannots).marked closing)
    exact (Spread.next (isNode_name hname) (hinner.marked opening)).marked dot
  | @errorModel keyword ts us vs name args annots _ hname hargs hannots =>
    refine ⟨_, .refl _, ?_, fun _ => rfl⟩
    rw [Node.children_errorModel]
    have hinner := (spreads_operands hargs).append (spreads_annotations hannots)
    exact (Spread.next (isNode_name hname) hinner).marked keyword
  | bundle hitems =>
    refine ⟨_, .refl _, ?_, fun _ => rfl⟩
    rw [Node.children_bundle]
    have hsingle : Spreads (IsNode file) (IsInstruction file) fun i => [.instruction i] :=
      .single fun _ _ => .instruction
    exact hsingle.separatedBy.map hitems
  | @bracedBundle opening closing before ts behind items _ _ hitems _ _ =>
    refine ⟨_, .refl _, ?_, fun _ => rfl⟩
    rw [Node.children_bundle]
    exact (((spreads_braced hitems).ahead _).behind before).marked opening

/-- The children of a part stand for rows inside its own row, in the order in which they are visited
unless the part is a mapping. -/
theorem IsNode.exists_spread {node : Node} (h : IsNode file ts node) :
    ∃ nodes, nodes.Perm node.children ∧ Spread (IsNode file) ts nodes ∧
      (node.kind ≠ .mapping → nodes = node.children) := by
  have hdirect (hspread : Spread (IsNode file) ts node.children) :
      ∃ nodes, nodes.Perm node.children ∧ Spread (IsNode file) ts nodes ∧
        (node.kind ≠ .mapping → nodes = node.children) :=
    ⟨_, .refl _, hspread, fun _ => rfl⟩
  cases h with
  | expr he => exact hdirect (spreads_expression (Nat.le_refl _) he)
  | entry he => exact hdirect (spreads_entry he)
  | annot ha => exact hdirect (spreads_annot ha)
  | instruction hi => exact hdirect (spreads_instruction hi)
  | statement hs => exact exists_spread_statement hs
  | version | brokenExpr | brokenStatement => exact hdirect .nil

variable {node : Node} {nodes : List Node}

/-- What holds of everything that a row inside of a row stands for holds everywhere below what the
whole row stands for. -/
theorem IsNode.everywhere {p : Node → Prop} (h : IsNode file ts node)
    (hp : ∀ ⦃row node⦄, row <:+: ts → IsNode file row node → p node) : node.Everywhere p := by
  induction node using Node.induction_on_children generalizing ts with
  | h node ih =>
    obtain ⟨nodes, hperm, hspread, -⟩ := h.exists_spread
    refine .mk (hp List.infix_rfl h) fun child hchild => ?_
    obtain ⟨row, hinside, hrow⟩ := hspread.exists_row (hperm.mem_iff.2 hchild)
    exact ih child hchild hrow fun _ _ hinner => hp (hinner.trans hinside)

/-! ## Ranges -/

/-- A part has the range of its row. -/
theorem IsNode.span (h : IsNode file ts node) (hrises : Rises file ts) :
    Span file ts node.location := by
  -- An expression spans by what it is made of; everything else by the range of its own row.
  cases h with
  | expr he => exact spans_expression _ he hrises
  | entry he =>
    cases he with
    | item he => exact spans_expression _ he hrises
    | range hfirst _ hlast =>
      have hlater : Rises file _ := hrises.right.sublist (List.sublist_cons_self ..)
      exact (spans_expression _ hfirst hrises.left).joined (spans_expression _ hlast hlater) hrises
  | annot ha =>
    cases ha with
    | plain hsign | applied hsign => exact span_rangeOf (by rw [hsign]; rfl) hrises
  | instruction hi =>
    cases hi with
    | plain hname =>
      obtain ⟨hkind⟩ := hname
      exact span_rangeOf (by rw [hkind]; rfl) hrises
    | conditional hmark => exact span_rangeOf (by rw [hmark]; rfl) hrises
  | statement hs =>
    obtain ⟨first, rest, rfl, hkind, -⟩ := begins_statement hs
    show Span file _ (Statement.location _)
    rw [location_of_isStatement hs]
    exact span_rangeOf hkind hrises
  | version hkeyword => exact span_rangeOf (by rw [hkeyword]; rfl) hrises
  | brokenExpr hkind | brokenStatement hkind => exact span_rangeOf hkind hrises

/-- What is read from rows one behind the other has ranges one behind the other. -/
theorem Spread.pairwise_location (h : Spread (IsNode file) ts nodes) (hrises : Rises file ts) :
    nodes.Pairwise fun a b => a.location.last.Before b.location.first := by
  induction h with
  | nil => exact .nil
  | @cons before row ts node nodes hrow hrest ih =>
    have hrises' : Rises file (row ++ ts) := hrises.right
    refine List.pairwise_cons.2 ⟨fun later hlater => ?_, ih hrises'.right⟩
    obtain ⟨row', hinside, hrow'⟩ := hrest.exists_row hlater
    have hspan := hrow.span hrises'.left
    have hspan' := hrow'.span (hrises'.right.sublist hinside.sublist)
    generalize node.location = range at hspan
    generalize later.location = range' at hspan'
    obtain ⟨-, hlast⟩ := hspan
    obtain ⟨-, -⟩ := hspan'
    exact (List.pairwise_append.1 hrises'.apart).2.2 _ (mem_of_lastSolid? hlast).1 _
      (hinside.sublist.mem List.mem_cons_self)

end Cqasm.Grammar
