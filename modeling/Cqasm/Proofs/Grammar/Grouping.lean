import Cqasm.Proofs.Grammar.Levels
import Cqasm.Proofs.Printing.Printer
import Cqasm.Proofs.Recognition.Operand

/-!
# Operator trees and how their operators group

The productions for operators say in layers how a row of operands and operators is grouped. An
`OperatorTree` says the same without layers: it keeps the tokens of an expression beside what they
stand for, and `OperatorTree.IsGrouped` tells by nothing but a node and its children whether the
operators are grouped as they should be. What is in brackets is not part of the tree, and an
expression in parentheses is an operand of it like any other.

Layer by layer, the trees that are grouped in this sense are those that the productions derive
(`isLayered_iff_reads`), and so are whole expressions (`groupedWithin_iff`).
-/

set_option autoImplicit false

namespace Cqasm

/-- How tightly an operator binds its operands: the number of its level, the loosest first. -/
def BinaryOperator.level : BinaryOperator → Nat
  | or => 0
  | and => 1
  | equal | notEqual => 2
  | less | lessEqual | greater | greaterEqual => 3
  | add | subtract => 4
  | multiply | divide | remainder => 5
  | power => 6

namespace Grammar

/-- A row of tokens with its operators taken apart. -/
inductive OperatorTree where
  /-- What needs no operator to stand by itself, such as an expression in parentheses. -/
  | operand (tokens : List Token) (e : Expr)
  | indexed (base : OperatorTree) (opening : Token) (inside : List Token)
      (entries : List IndexEntry) (closing : Token)
  | signed (sign : Token) (operator : UnaryOperator) (inner : OperatorTree)
  | joined (lhs : OperatorTree) (operator : BinaryOperator) (sign : Token) (rhs : OperatorTree)

namespace OperatorTree

/-- The tokens of a tree in the order in which they are written. -/
def tokens : OperatorTree → List Token
  | operand tokens _ => tokens
  | indexed base opening inside _ closing => base.tokens ++ opening :: (inside ++ [closing])
  | signed sign _ inner => sign :: inner.tokens
  | joined lhs _ sign rhs => lhs.tokens ++ sign :: rhs.tokens

/-- The expression that a tree stands for. -/
def expr (file : String) : OperatorTree → Expr
  | operand _ e => e
  | indexed base _ _ entries closing =>
    .index (base.expr file) entries ((base.expr file).location.through (closing.location file))
  | signed sign operator inner =>
    .unary operator (inner.expr file)
      ((sign.location file).through (inner.expr file).location)
  | joined lhs operator _ rhs =>
    .binary operator (lhs.expr file) (rhs.expr file)
      ((lhs.expr file).location.through (rhs.expr file).location)

/-- Every token of a tree is what it has to be, however the tree groups them; `sub` are the
expressions in brackets. -/
def IsWritten (file : String) (sub : Phrase Expr) : OperatorTree → Prop
  | operand tokens e => IsPrimary file sub tokens e
  | indexed base opening inside entries closing =>
    base.IsWritten file sub ∧ opening.kind = .leftBracket ∧
      SeparatedBy .comma (IsEntry sub) inside entries ∧ closing.kind = .rightBracket
  | signed sign operator inner => sign.kind = operator.kind ∧ inner.IsWritten file sub
  | joined lhs operator sign rhs =>
    lhs.IsWritten file sub ∧ sign.kind = operator.kind ∧ rhs.IsWritten file sub

/-- The operator between the two operands that a tree consists of, if it does. -/
def operator? : OperatorTree → Option BinaryOperator
  | joined _ operator _ _ => some operator
  | _ => none

/-- A tree with an operator in front. -/
def IsSigned : OperatorTree → Prop
  | signed .. => True
  | _ => False

/-- A tree without any operator that binds its operands more loosely than the given level, unless
it is further down. -/
def Binds (level : Nat) (tree : OperatorTree) : Prop :=
  ∀ operator, tree.operator? = some operator → level ≤ operator.level

/-- The operators of a tree are grouped by their levels: from the left, but powers from the right.
Operators in front are tighter than any of them, and indices are tighter still. -/
def IsGrouped : OperatorTree → Prop
  | operand .. => True
  | indexed base .. => base.IsGrouped ∧ base.operator? = none ∧ ¬base.IsSigned
  | signed _ _ inner => inner.IsGrouped ∧ inner.operator? = none
  | joined lhs operator _ rhs =>
    lhs.IsGrouped ∧ rhs.IsGrouped ∧ lhs.Binds operator.level ∧ rhs.Binds operator.level ∧
      (operator ≠ .power → rhs.Binds (operator.level + 1)) ∧
      (operator = .power → lhs.operator? = none)

theorem binds_of_operator? {tree : OperatorTree} (h : tree.operator? = none) (level : Nat) :
    tree.Binds level := by
  intro operator hoperator
  cases h.symm.trans hoperator

theorem Binds.mono {level level' : Nat} {tree : OperatorTree} (h : tree.Binds level)
    (hle : level' ≤ level) : tree.Binds level' :=
  fun operator hoperator => hle.trans (h operator hoperator)

theorem binds_joined_iff {lhs rhs : OperatorTree} {operator : BinaryOperator} {sign : Token}
    {level : Nat} : (joined lhs operator sign rhs).Binds level ↔ level ≤ operator.level := by
  simp [Binds, operator?]

end OperatorTree

/-! ## Layers -/

open OperatorTree

variable {file : String} {sub : Phrase Expr} {ts : List Token} {e : Expr}

/-- What grouped trees of a certain shape stand for. -/
def Reads (file : String) (sub : Phrase Expr) (shape : OperatorTree → Prop) : Phrase Expr :=
  fun ts e => ∃ tree : OperatorTree, tree.IsWritten file sub ∧ tree.IsGrouped ∧ shape tree ∧
    tree.tokens = ts ∧ tree.expr file = e

theorem Reads.mono {shape shape' : OperatorTree → Prop} (h : Reads file sub shape ts e)
    (hshape : ∀ tree, shape tree → shape' tree) : Reads file sub shape' ts e := by
  obtain ⟨tree, hwritten, hgrouped, htree, hread⟩ := h
  exact ⟨tree, hwritten, hgrouped, hshape tree htree, hread⟩

theorem isPostfix_iff_reads :
    IsPostfix file sub ts e ↔
      Reads file sub (fun tree => tree.operator? = none ∧ ¬tree.IsSigned) ts e := by
  constructor
  · intro h
    induction h with
    | primary he => exact ⟨.operand _ _, he, trivial, ⟨rfl, id⟩, rfl, rfl⟩
    | @index _ us opening closing _ entries _ hopen hentries hclose ih =>
      obtain ⟨base, hwritten, hgrouped, hbase, rfl, rfl⟩ := ih
      exact ⟨.indexed base opening us entries closing, ⟨hwritten, hopen, hentries, hclose⟩,
        ⟨hgrouped, hbase⟩, ⟨rfl, id⟩, rfl, rfl⟩
  · rintro ⟨tree, hwritten, hgrouped, ⟨hoperator, hsigned⟩, rfl, rfl⟩
    induction tree with
    | operand => exact .primary hwritten
    | indexed base opening inside entries closing ih =>
      obtain ⟨hbase, hopen, hentries, hclose⟩ := hwritten
      obtain ⟨hgrouped, hoperator, hsigned⟩ := hgrouped
      exact .index (ih hbase hgrouped hoperator hsigned) hopen hentries hclose
    | signed => exact absurd trivial hsigned
    | joined => cases hoperator

theorem mem_signs_iff {kind : Kind} {operator : UnaryOperator} :
    (kind, operator) ∈ [(Kind.minus, .negate), (.bang, .not), (.tilde, .complement)] ↔
      kind = operator.kind := by
  cases operator <;> simp [UnaryOperator.kind]

theorem isUnary_iff_reads :
    IsUnary file sub ts e ↔ Reads file sub (·.operator? = none) ts e := by
  constructor
  · intro h
    induction h with
    | indexed he => exact (isPostfix_iff_reads.1 he).mono fun _ h => h.1
    | @operator _ sign operator _ hsign _ ih =>
      obtain ⟨inner, hwritten, hgrouped, hoperator, rfl, rfl⟩ := ih
      exact ⟨.signed sign operator inner, ⟨mem_signs_iff.1 hsign, hwritten⟩,
        ⟨hgrouped, hoperator⟩, rfl, rfl, rfl⟩
  · rintro ⟨tree, hwritten, hgrouped, hoperator, rfl, rfl⟩
    induction tree with
    | signed sign operator inner ih =>
      obtain ⟨hsign, hwritten⟩ := hwritten
      exact .operator (mem_signs_iff.2 hsign) (ih hwritten hgrouped.1 hgrouped.2)
    | joined => cases hoperator
    | operand | indexed =>
      exact .indexed (isPostfix_iff_reads.2 ⟨_, hwritten, hgrouped, ⟨rfl, id⟩, rfl, rfl⟩)

/-- A power goes on to the right, with what binds no more loosely than a power does. -/
theorem isPower_iff_reads :
    IsPower file sub ts e ↔ Reads file sub (Binds BinaryOperator.power.level) ts e := by
  constructor
  · intro h
    induction h with
    | operand he => exact (isUnary_iff_reads.1 he).mono fun _ h => binds_of_operator? h _
    | @operator _ _ sign _ _ hlhs hsign _ ih =>
      obtain ⟨lhs, hwritten, hgrouped, hoperator, rfl, rfl⟩ := isUnary_iff_reads.1 hlhs
      obtain ⟨rhs, hwrittenRhs, hgroupedRhs, hbinds, rfl, rfl⟩ := ih
      exact ⟨.joined lhs .power sign rhs, ⟨hwritten, hsign, hwrittenRhs⟩,
        ⟨hgrouped, hgroupedRhs, binds_of_operator? hoperator _, hbinds,
          fun h => absurd rfl h, fun _ => hoperator⟩,
        binds_joined_iff.2 le_rfl, rfl, rfl⟩
  -- Only the right operand may be a power in its turn, so the induction is to the right.
  · rintro ⟨tree, hwritten, hgrouped, hbinds, rfl, rfl⟩
    induction tree with
    | joined lhs operator sign rhs _ ih =>
      have hpower : operator = .power := by
        have := binds_joined_iff.1 hbinds
        cases operator <;> first | rfl | simp [BinaryOperator.level] at this
      subst hpower
      obtain ⟨hlhs, hsign, hrhs⟩ := hwritten
      obtain ⟨hgroupedLhs, hgroupedRhs, -, hbindsRhs, -, hoperator⟩ := hgrouped
      exact .operator (isUnary_iff_reads.2 ⟨lhs, hlhs, hgroupedLhs, hoperator rfl, rfl, rfl⟩)
        hsign (ih hrhs hgroupedRhs hbindsRhs)
    | operand | indexed | signed =>
      exact .operand (isUnary_iff_reads.2 ⟨_, hwritten, hgrouped, rfl, rfl, rfl⟩)

/-- Any other level goes on to the left, and has tighter levels only on the right. -/
theorem isChain_iff_reads {operators : List (Kind × BinaryOperator)} {level : Nat}
    (hoperators : ∀ kind operator, (kind, operator) ∈ operators ↔
      kind = operator.kind ∧ operator.level = level)
    (hlevel : level < BinaryOperator.power.level) :
    IsChain operators (Reads file sub (Binds (level + 1))) ts e ↔
      Reads file sub (Binds level) ts e := by
  constructor
  · intro h
    induction h with
    | operand he => exact he.mono fun _ h => h.mono (Nat.le_succ _)
    | @operator _ _ sign operator _ _ _ hsign hrhs ih =>
      obtain ⟨lhs, hlhs, hgroupedLhs, hbindsLhs, rfl, rfl⟩ := ih
      obtain ⟨rhs, hrhs, hgroupedRhs, hbindsRhs, rfl, rfl⟩ := hrhs
      obtain ⟨hsign, rfl⟩ := (hoperators _ _).1 hsign
      refine ⟨.joined lhs operator sign rhs, ⟨hlhs, hsign, hrhs⟩, ?_,
        binds_joined_iff.2 le_rfl, rfl, rfl⟩
      refine ⟨hgroupedLhs, hgroupedRhs, hbindsLhs, hbindsRhs.mono (Nat.le_succ _),
        fun _ => hbindsRhs, ?_⟩
      rintro rfl
      exact absurd hlevel (lt_irrefl _)
  -- Only the left operand may be on this level in its turn, so the induction is to the left.
  · rintro ⟨tree, hwritten, hgrouped, hbinds, rfl, rfl⟩
    induction tree with
    | joined lhs operator sign rhs ih _ =>
      -- a tighter operator is an operand of the level as it stands
      rcases (binds_joined_iff.1 hbinds).lt_or_eq with hlt | heq
      · exact .operand ⟨_, hwritten, hgrouped, binds_joined_iff.2 hlt, rfl, rfl⟩
      · obtain ⟨hlhs, hsign, hrhs⟩ := hwritten
        obtain ⟨hgroupedLhs, hgroupedRhs, hbindsLhs, -, hbindsRhs, -⟩ := hgrouped
        have hpower : operator ≠ .power := by
          rintro rfl
          exact absurd hlevel (by rw [heq]; exact lt_irrefl _)
        rw [← heq] at hbindsLhs hbindsRhs
        exact .operator (ih hlhs hgroupedLhs hbindsLhs)
          ((hoperators _ _).2 ⟨hsign, heq.symm⟩)
          ⟨rhs, hrhs, hgroupedRhs, hbindsRhs hpower, rfl, rfl⟩
    | operand | indexed | signed =>
      exact .operand ⟨_, hwritten, hgrouped, binds_of_operator? rfl _, rfl, rfl⟩

/-- The levels are numbered in their order. -/
theorem mem_leftLevels_iff (i : Nat) (h : i < leftLevels.length) (kind : Kind)
    (operator : BinaryOperator) :
    (kind, operator) ∈ leftLevels[i] ↔ kind = operator.kind ∧ operator.level = i := by
  revert i h kind
  cases operator <;> decide +kernel

theorem isChain_foldr_iff_reads {levels : List (List (Kind × BinaryOperator))} {level : Nat}
    (hlevels : ∀ i (h : i < levels.length), ∀ kind operator,
      (kind, operator) ∈ levels[i] ↔ kind = operator.kind ∧ operator.level = level + i)
    (hlength : level + levels.length = BinaryOperator.power.level) :
    levels.foldr IsChain (IsPower file sub) ts e ↔ Reads file sub (Binds level) ts e := by
  induction levels generalizing level ts e with
  | nil =>
    obtain rfl : level = BinaryOperator.power.level := hlength
    exact isPower_iff_reads
  | cons operators levels ih =>
    rw [List.length_cons] at hlength
    have htighter {ts : List Token} {e : Expr} :
        levels.foldr IsChain (IsPower file sub) ts e ↔ Reads file sub (Binds (level + 1)) ts e := by
      refine ih (fun i h kind operator => ?_) (by omega)
      have := hlevels (i + 1) (Nat.succ_lt_succ h) kind operator
      rwa [List.getElem_cons_succ, ← Nat.add_assoc, Nat.add_right_comm] at this
    have hchain : IsChain operators (Reads file sub (Binds (level + 1))) ts e ↔
        Reads file sub (Binds level) ts e :=
      isChain_iff_reads (hlevels 0 (Nat.succ_pos _)) (by omega)
    rw [← hchain]
    exact ⟨fun h => h.mono fun _ _ => htighter.1, fun h => h.mono fun _ _ => htighter.2⟩

theorem isLayered_iff_reads :
    IsLayered file sub ts e ↔ Reads file sub (fun _ => True) ts e := by
  have hlevels : IsLayered file sub ts e ↔ Reads file sub (Binds 0) ts e := by
    refine isChain_foldr_iff_reads (fun i h kind operator => ?_) rfl
    rw [Nat.zero_add]
    exact mem_leftLevels_iff i h kind operator
  rw [hlevels]
  exact ⟨fun h => h.mono fun _ _ => trivial, fun h => h.mono fun _ _ _ _ => Nat.zero_le _⟩

/-! ## Whole expressions -/

/-- What grouped trees stand for if in all their brackets there are such trees again, which go down
to at most the given number of levels. -/
def GroupedWithin (file : String) : (levels : Nat) → Phrase Expr
  | 0 => fun _ _ => False
  | levels + 1 => Reads file (GroupedWithin file levels) fun _ => True

/-- The expressions that the tokens of a row stand for when all operators are grouped by their
levels, in brackets and outside of them. -/
def Grouped (file : String) : Phrase Expr :=
  fun ts e => ∃ levels, GroupedWithin file levels ts e

theorem groupedWithin_iff (levels : Nat) :
    GroupedWithin file levels ts e ↔ IsExpression file levels ts e := by
  induction levels generalizing ts e with
  | zero => exact Iff.rfl
  | succ levels ih =>
    rw [GroupedWithin, ← isLayered_iff_reads]
    exact ⟨fun h => isLayered_mono h fun _ _ => ih.1, fun h => isLayered_mono h fun _ _ => ih.2⟩

theorem grouped_iff : Grouped file ts e ↔ ∃ levels, IsExpression file levels ts e :=
  exists_congr fun levels => groupedWithin_iff levels

end Grammar

end Cqasm
