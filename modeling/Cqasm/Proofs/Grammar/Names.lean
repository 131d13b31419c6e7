import Cqasm.Proofs.Grammar.Nodes

/-!
# The names in a tree

Wherever a part of a tree has the name of something, a name of the grammar stands in its row
(`IsNode.cases_names`), which is a single token. The one exception is what a mapping assigns to:
that is read as any expression is, so parentheses may be around it.
-/

set_option autoImplicit false

namespace Cqasm

/-- The names that a node has by itself, not as expressions: of what is declared, defined, called or
mapped to, of a type, and those of an annotation. -/
def Node.names : Node → List Identifier
  | statement (.mapping target ..) => [target]
  | statement (.declaration names type ..) => names ++ [type]
  | statement (.subcircuit name ..) => [name]
  | statement (.errorModel name ..) => [name]
  | instruction i => [i.name]
  | annot a => [a.interface, a.operation]
  | expr (.call function ..) => [function]
  | _ => []

namespace Grammar

variable {file : String} {ts : List Token} {id : Identifier}

/-- A name of the grammar, as a node. -/
inductive IsNameNode (file : String) : Phrase Node
  | mk {ts : List Token} {id : Identifier} :
      IsName file ts id → IsNameNode file ts (.expr (.identifier id))

/-- Identifiers whose names stand one behind the other in a row of tokens. -/
def NamesIn (file : String) (ts : List Token) (ids : List Identifier) : Prop :=
  Spread (IsNameNode file) ts (ids.map fun id => .expr (.identifier id))

namespace NamesIn

variable {us : List Token} {ids ids' : List Identifier}

theorem nil : NamesIn file ts [] :=
  Spread.nil

theorem next (h : IsName file ts id) (h' : NamesIn file us ids) :
    NamesIn file (ts ++ us) (id :: ids) :=
  Spread.next (.mk h) h'

theorem single (h : IsName file ts id) : NamesIn file ts [id] :=
  Spread.single (.mk h)

theorem marked (mark : Token) (h : NamesIn file ts ids) : NamesIn file (mark :: ts) ids :=
  Spread.marked mark h

theorem append (h : NamesIn file ts ids) (h' : NamesIn file us ids') :
    NamesIn file (ts ++ us) (ids ++ ids') := by
  unfold NamesIn
  rw [List.map_append]
  exact Spread.append h h'

theorem separatedBy {mark : Kind} (h : SeparatedBy mark (IsName file) ts ids) :
    NamesIn file ts ids := by
  have hname : Spreads (IsNameNode file) (IsName file) fun id => [.expr (.identifier id)] :=
    .single fun _ _ => .mk
  exact hname.separatedBy.map h

/-- Each of the names has a row of its own. -/
theorem exists_row (h : NamesIn file ts ids) (hmem : id ∈ ids) :
    ∃ row, row <:+: ts ∧ IsName file row id := by
  obtain ⟨row, hinside, hrow⟩ := Spread.exists_row h (List.mem_map.2 ⟨id, hmem, rfl⟩)
  cases hrow with
  | mk hname => exact ⟨row, hinside, hname⟩

end NamesIn

/-! ## One part at a time -/

/-- A function is called by a name, however many parentheses are around the call. -/
theorem exists_row_call {levels : Nat} {args : List Expr} {range : Location}
    (h : IsExpression file levels ts (.call id args range)) :
    ∃ row, row <:+: ts ∧ IsName file row id := by
  induction levels generalizing ts range with
  | zero => exact h.elim
  | succ levels ih =>
    have hprimary := Parser.isPrimary_of_isLayered h (by simp [Expr.kind])
    generalize hv : Expr.call id args range = v at hprimary
    cases hprimary with
    | @call us _ _ _ _ _ hname =>
      cases hv
      exact ⟨us, (List.prefix_append ..).isInfix, hname⟩
    | @parenthesised us opening closing e _ he _ =>
      cases e <;> cases hv
      obtain ⟨row, hinside, hname⟩ := ih he
      exact ⟨row, hinside.trans ⟨[opening], [closing], rfl⟩, hname⟩
    | _ => cases hv

theorem namesIn_annot {a : Annot} (h : IsAnnot file ts a) :
    NamesIn file ts (Node.annot a).names := by
  cases h with
  | @plain sign dot _ _ _ _ _ hinterface _ hoperation =>
    exact (NamesIn.next hinterface ((NamesIn.single hoperation).marked dot)).marked sign
  | @applied sign dot opening closing _ _ _ _ _ _ _ hinterface _ hoperation =>
    exact (NamesIn.next hinterface ((NamesIn.next hoperation .nil).marked dot)).marked sign

theorem namesIn_instruction {i : Instruction} (h : IsInstruction file ts i) :
    NamesIn file ts (Node.instruction i).names := by
  cases h with
  | plain hname => exact .next hname .nil
  | @conditional mark _ _ _ _ _ _ _ _ _ hname => exact (NamesIn.next hname .nil).marked mark

/-- The row of a mapping that assigns to a name. -/
inductive Assigns (file : String) (ts : List Token) (id : Identifier) (e : Expr) : Prop
  | mk {row us : List Token} {sign : Token} :
      row ++ sign :: us <:+: ts → IsTarget file maxNesting row id → IsExpr file us e →
      Assigns file ts id e

/-- The names of a statement stand in its row, unless it assigns to a name. -/
theorem cases_names_statement {s : Statement} (h : IsStatement file ts s) :
    NamesIn file ts (Node.statement s).names ∨
      ∃ id e annots range, s = .mapping id e annots range ∧ Assigns file ts id e := by
  cases h with
  | @assignment keyword sign row us vs target e annots _ htarget _ he _ =>
    have hinside : row ++ sign :: us <:+: keyword :: (row ++ sign :: (us ++ vs)) :=
      ⟨[keyword], vs, by simp⟩
    exact .inr ⟨_, _, _, _, rfl, .mk hinside htarget he⟩
  | @mapping keyword comma ts us vs target e annots _ _ _ hname =>
    have hbehind : NamesIn file (us ++ vs) [target] := .next hname .nil
    exact .inl ((NamesIn.append .nil (hbehind.marked comma)).marked keyword)
  | @declaration keyword colon ts us vs names type annots _ hnames _ htype =>
    have hbehind : NamesIn file (us ++ vs) [type] := .next htype .nil
    exact .inl (((NamesIn.separatedBy hnames).append (hbehind.marked colon)).marked keyword)
  | @subcircuit mark _ _ _ _ _ hname | @iteratedSubcircuit mark _ _ _ _ _ _ _ _ _ hname
  | @errorModel mark _ _ _ _ _ _ _ hname =>
    exact .inl ((NamesIn.next hname .nil).marked mark)
  | bundle | bracedBundle => exact .inl .nil

/-- Each name that a node has is a name of the grammar in its row, unless the node is a mapping that
assigns to it. -/
theorem IsNode.cases_names {node : Node} (h : IsNode file ts node) (hid : id ∈ node.names) :
    (∃ row, row <:+: ts ∧ IsName file row id) ∨
      ∃ e annots range, node = .statement (.mapping id e annots range) ∧ Assigns file ts id e := by
  cases h with
  | @expr ts e he =>
    cases e with
    | call function args range =>
      obtain rfl := List.mem_singleton.1 hid
      exact .inl (exists_row_call he)
    | _ => cases hid
  | annot ha => exact .inl ((namesIn_annot ha).exists_row hid)
  | instruction hi => exact .inl ((namesIn_instruction hi).exists_row hid)
  | statement hs =>
    rcases cases_names_statement hs with hnames | ⟨target, e, annots, range, rfl, hassigns⟩
    · exact .inl (hnames.exists_row hid)
    · obtain rfl := List.mem_singleton.1 hid
      exact .inr ⟨e, annots, range, rfl, hassigns⟩
  | entry | version | brokenExpr | brokenStatement => cases hid

end Grammar

end Cqasm
