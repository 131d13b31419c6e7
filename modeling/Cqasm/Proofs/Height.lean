import Cqasm.Proofs.Excerpt
import Cqasm.Proofs.Printing.Expression
import Cqasm.Proofs.Tree.Height

/-!
# A limit that misses chains

An expression nested deeper than `maxNesting` levels is to be given up, so that no text can make the
tree, and whatever calls itself on the way down a tree, arbitrarily deep. The limit does not achieve
this. It counts the calls for an expression, and these are made for what stands in parentheses,
brackets and indices. From one of them to the next there are nine steps at most
(`Grammar.below_layered`), which limits the nesting of a tree as far as it goes (`tree_nesting_le`).
But a prefix operator, an exponent, an index or an operator more in a row adds a step to the tree
without such a call. It is missed by the count, and a text with any number of them is accepted
(`exists_height_ge`). So there is no limit for the height of a tree (`height_unbounded`).
-/

set_option autoImplicit false

namespace Cqasm

open Grammar

/-- Expressions whose nesting is less than a number. -/
def Expr.Below (n : Nat) (e : Expr) : Prop :=
  (Node.expr e).nesting < n

namespace Expr

variable {e : Expr} {n : Nat}

theorem below_iff :
    e.Below (n + 1) ↔ (∀ child ∈ (Node.expr e).chained, child.nesting ≤ n) ∧
      ∀ child ∈ (Node.expr e).inner, child.nesting < n := by
  rw [Below, Nat.lt_succ_iff, Node.nesting_le_iff]
  rfl

theorem below_iff_of_plain (h : (Node.expr e).chained = []) :
    e.Below (n + 1) ↔ ∀ child ∈ (Node.expr e).children, child.nesting < n := by
  rw [Below, Nat.lt_succ_iff, Node.nesting_le_iff_of_plain h]
  rfl

/-- There is nothing below a literal or a name. -/
theorem below_of_leaf (hplain : (Node.expr e).chained = []) (hleaf : (Node.expr e).children = []) :
    e.Below (n + 1) := by
  rw [below_iff_of_plain hplain, hleaf]
  simp

end Expr

namespace Grammar

variable {file : String} {sub : Phrase Expr} {n : Nat}

/-! ## One level of nesting -/

theorem nesting_entry (hsub : Yields sub (Expr.Below n)) :
    Yields (IsEntry sub) fun entry => (Node.entry entry).nesting ≤ n := by
  intro ts entry h
  rw [Node.nesting_le_iff_of_plain rfl, Node.children_entry]
  cases h with
  | item he => exact List.forall_mem_singleton.2 (hsub he)
  | range hfirst _ hlast =>
    exact List.forall_mem_cons.2 ⟨hsub hfirst, List.forall_mem_singleton.2 (hsub hlast)⟩

theorem below_element (hsub : Yields sub (Expr.Below n)) :
    Yields (IsElement sub) (Expr.Below n) := by
  rintro _ _ ⟨-, he, -⟩
  exact hsub he

theorem below_primary (hsub : Yields sub (Expr.Below n)) :
    Yields (IsPrimary file sub) (Expr.Below (n + 2)) := by
  intro ts e h
  cases h with
  | integer | float | string | json | name => exact Expr.below_of_leaf rfl rfl
  | call _ _ hargs _ =>
    rw [Expr.below_iff_of_plain rfl, Node.children_call]
    refine List.forall_mem_cons.2 ⟨Expr.below_of_leaf rfl rfl, ?_⟩
    exact List.forall_mem_map.2 fun e he => Nat.lt_succ_of_lt (hsub.listed hargs e he)
  | parenthesised _ he _ =>
    rw [Expr.Below, Nat.lt_succ_iff, Node.nesting_withLocation_le_iff]
    exact Nat.le_succ_of_le (Nat.le_of_lt (hsub he))
  | matrix _ hrows _ =>
    rw [Expr.below_iff_of_plain rfl, Node.children_matrix]
    refine List.forall_mem_map.2 fun e he => Nat.lt_succ_of_lt ?_
    obtain ⟨row, hrow, he⟩ := List.mem_flatten.1 he
    exact (below_element hsub).separatedBy.separatedBy hrows row hrow e he

/-- What stands in an index is two steps down, the first of them to the entry. -/
theorem below_postfix (hsub : Yields sub (Expr.Below n)) :
    Yields (IsPostfix file sub) (Expr.Below (n + 2)) := by
  intro ts e h
  induction h with
  | primary he => exact below_primary hsub he
  | index _ _ hentries _ ih =>
    rw [Expr.below_iff]
    have hentries := (nesting_entry hsub).separatedBy hentries
    refine ⟨List.forall_mem_singleton.2 (Nat.le_of_lt_succ ih), ?_⟩
    exact List.forall_mem_map.2 fun entry hentry => Nat.lt_succ_of_le (hentries entry hentry)

theorem below_unary (hsub : Yields sub (Expr.Below n)) :
    Yields (IsUnary file sub) (Expr.Below (n + 2)) := by
  intro ts e h
  induction h with
  | indexed he => exact below_postfix hsub he
  | operator _ _ ih =>
    rw [Expr.below_iff]
    exact ⟨List.forall_mem_singleton.2 (Nat.le_of_lt_succ ih), by simp [Node.inner]⟩

/-- The exponent of a power goes on with the chain, the base does not. -/
theorem below_power (hsub : Yields sub (Expr.Below n)) :
    Yields (IsPower file sub) (Expr.Below (n + 3)) := by
  intro ts e h
  induction h with
  | operand he => exact Nat.lt_succ_of_lt (below_unary hsub he)
  | operator hlhs _ _ ih =>
    rw [Expr.below_iff]
    exact ⟨List.forall_mem_singleton.2 (Nat.le_of_lt_succ ih),
      List.forall_mem_singleton.2 (below_unary hsub hlhs)⟩

/-- A chain that groups to the left goes on in its left operands. -/
theorem below_chain {operators : List (Kind × BinaryOperator)}
    (hoperators : ∀ entry ∈ operators, entry.2 ≠ .power) (hsub : Yields sub (Expr.Below n)) :
    Yields (IsChain operators sub) (Expr.Below (n + 1)) := by
  intro ts e h
  induction h with
  | operand he => exact Nat.lt_succ_of_lt (hsub he)
  | @operator _ _ _ operator lhs rhs _ hsign hrhs ih =>
    have hpower : operator ≠ .power := hoperators _ hsign
    rw [Expr.below_iff, Node.chained, Node.inner, if_neg hpower, if_neg hpower]
    exact ⟨List.forall_mem_singleton.2 (Nat.le_of_lt_succ ih),
      List.forall_mem_singleton.2 (hsub hrhs)⟩

/-- From one expression to those inside of it, there are nine steps at most that are counted: two
for the operand, and one for each of the seven levels of binary operators. -/
theorem below_layered (hsub : Yields sub (Expr.Below n)) :
    Yields (IsLayered file sub) (Expr.Below (n + 9)) := by
  have hlevels : ∀ level ∈ leftLevels, ∀ entry ∈ level, entry.2 ≠ .power := by decide
  suffices h : ∀ levels : List (List (Kind × BinaryOperator)),
      (∀ level ∈ levels, ∀ entry ∈ level, entry.2 ≠ .power) →
        Yields (levels.foldr IsChain (IsPower file sub)) (Expr.Below (n + 3 + levels.length)) from
    h leftLevels hlevels
  intro levels hlevels
  induction levels with
  | nil => exact below_power hsub
  | cons level levels ih =>
    obtain ⟨hlevel, hlevels⟩ := List.forall_mem_cons.1 hlevels
    exact below_chain hlevel (ih hlevels)

/-! ## All levels of nesting -/

theorem below_expression (levels : Nat) :
    Yields (IsExpression file levels) (Expr.Below (9 * levels)) := by
  induction levels with
  | zero => exact fun _ _ h => h.elim
  | succ levels ih => exact below_layered ih

end Grammar

/-! ## Whole trees -/

/-- What the limit for expressions does achieve: whatever a text holds and whenever reading gives
up, there is a limit for the nesting of the tree, which is its height but for the steps along
chains. -/
theorem tree_nesting_le (settings : Settings) (file text : String) :
    ∃ root, (parseText settings file text).root = some root ∧
      (Node.root root).nesting ≤ 9 * maxNesting + 4 := by
  suffices h : ∃ program, (parseText settings file text).root = some (Reading.rootOf program) ∧
      (Node.program program).Everywhere fun node =>
        ∀ e, node = .expr e → node.nesting ≤ 9 * maxNesting - 1 by
    obtain ⟨program, hroot, hprogram⟩ := h
    exact ⟨_, hroot, Node.nesting_le_of_everywhere (hprogram.root fun e heq => nomatch heq)⟩
  rcases cases_parseText settings file text with
    ⟨row, program, -, hread, hroot⟩ | ⟨first, stop, -, hroot⟩
  · refine ⟨program, hroot, hread.everywhere (fun e heq => nomatch heq) ?_⟩
    rintro row node - hnode e rfl
    cases hnode with
    | expr he => exact Nat.le_sub_one_of_lt (below_expression maxNesting he)
    | brokenExpr => exact Nat.le_of_lt_succ (Expr.below_of_leaf rfl rfl)
  · refine ⟨_, hroot, .mk (fun e heq => nomatch heq) fun child hchild => ?_⟩
    cases hchild

/-! ## Chains of operators -/

/-- A number that is negated again and again. -/
def negations (n : Nat) : List Char :=
  List.replicate n '-' ++ ['1']

theorem cut_negations_zero : Lexeme.cut (negations 0) = [.ofKind .integer '1' []] := by
  decide +kernel

theorem cut_negations_succ (n : Nat) :
    Lexeme.cut (negations (n + 1)) = .ofKind .minus '-' [] :: Lexeme.cut (negations n) := rfl

theorem clean_negations (n : Nat) : ∀ piece ∈ Lexeme.cut (negations n), piece.Clean := by
  induction n with
  | zero =>
    rw [cut_negations_zero]
    exact List.forall_mem_singleton.2 rfl
  | succ n ih => exact List.forall_mem_cons.2 ⟨rfl, ih⟩

/-- Each minus sign is one more step down, and no level of nesting. -/
theorem exists_isUnary_negations {sub : Phrase Expr} (file : String) (n : Nat) (place : Position) :
    ∃ e, IsUnary file sub (tokensOf place (Lexeme.cut (negations n))) e ∧
      n ≤ (Node.expr e).height := by
  induction n generalizing place with
  | zero =>
    rw [cut_negations_zero]
    have hvalue : Literal.natValue ['1'] ≤ largestInteger := by decide +kernel
    exact ⟨_, .indexed (.primary (.integer rfl hvalue)), Nat.zero_le _⟩
  | succ n ih =>
    rw [cut_negations_succ, tokensOf_cons]
    obtain ⟨e, he, hheight⟩ := ih (place.after ['-'])
    have hsign : (Kind.minus, UnaryOperator.negate) ∈
        [(Kind.minus, .negate), (.bang, .not), (.tilde, .complement)] := .head _
    refine ⟨_, .operator hsign he, Nat.lt_of_le_of_lt hheight ?_⟩
    exact Node.height_lt_of_mem_children (.head _)

/-- For every height, there is a text that is accepted and has a tree that is as high. -/
theorem exists_height_ge (settings : Settings) (file : String) (n : Nat) :
    ∃ text root, (parseText settings file text).errors = [] ∧
      (parseText settings file text).root = some root ∧ n ≤ (Node.root root).height := by
  let text := instructionX ++ " " ++ String.ofList (negations n)
  have htext : text.toList = instructionX.toList ++ ' ' :: negations n := by simp [text]
  obtain ⟨hlexical, place, htokens⟩ := exists_tokens_operand htext (clean_negations n)
  obtain ⟨e, he, hheight⟩ := exists_isUnary_negations file n place
  have hexpr : IsExpr file _ e := isChain_foldr (.operand he)
  have hlast : (streamOf text).last.kind = .eof := rfl
  obtain ⟨version, gate, range, range', hprogram, -, hoperands⟩ :=
    exists_isProgram_of_operand hexpr hlast
  rw [← List.append_assoc, ← htokens] at hprogram
  let bundle : Statement := .bundle [gate] range
  let program : Program := .program version none [bundle] range'
  have hoperand : Node.expr e ∈ (Node.instruction gate).children := by
    simp [Node.children_instruction, hoperands]
  obtain ⟨herrors, hroot⟩ := parseText_of_isProgram settings hlexical hprogram
  refine ⟨text, _, herrors, hroot, ?_⟩
  -- from the operand outwards, a level at each step
  calc
    n ≤ (Node.expr e).height := hheight
    _ ≤ (Node.instruction gate).height := (Node.height_lt_of_mem_children hoperand).le
    _ ≤ (Node.statement bundle).height := (Node.height_lt_of_mem_children (.head _)).le
    _ ≤ (Node.program program).height := (Node.height_lt_of_mem_children (.tail _ (.head _))).le
    _ ≤ (Node.root (Reading.rootOf program)).height :=
      (Node.height_lt_of_mem_children (.head _)).le

/-- There is no limit for the height of a tree, although there is one for how deep expressions may
be nested. -/
theorem height_unbounded :
    ¬∃ limit, ∀ (settings : Settings) (file text : String) (root : Root),
      (parseText settings file text).root = some root → (Node.root root).height ≤ limit := by
  rintro ⟨limit, h⟩
  obtain ⟨text, root, -, hroot, hheight⟩ := exists_height_ge default "f" (limit + 1)
  exact absurd (h default "f" text root hroot) (Nat.not_le.2 hheight)

end Cqasm
