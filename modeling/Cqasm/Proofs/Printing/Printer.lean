import Mathlib.Algebra.Group.Nat.Defs
import Cqasm.Diagnostic
import Cqasm.Proofs.Printing.Word
import Cqasm.Proofs.Tree.Children

/-!
# Printing programs

A printer turns a program into words (`Style.program`) and the words into a text (`Style.print`). It
has its ways with everything that may be written in more than one way, and they are its `Style`.
What all printers have in common is that a compound operand is in parentheses, that the escapes in a
string stand for what was escaped, that there are blanks wherever two words might otherwise run
together, and that every statement is on a line of its own.

Not everything in a tree can be written down. `Node.Printable` says what a node has to be like.
-/

set_option autoImplicit false

namespace Cqasm

/-- The token that an operator in front of its operand is written as. -/
def UnaryOperator.kind : UnaryOperator → Kind
  | negate => .minus
  | not => .bang
  | complement => .tilde

/-- The token that an operator between its operands is written as. -/
def BinaryOperator.kind : BinaryOperator → Kind
  | or => .orOr
  | and => .andAnd
  | equal => .equal
  | notEqual => .notEqual
  | less => .less
  | lessEqual => .lessEqual
  | greater => .greater
  | greaterEqual => .greaterEqual
  | add => .plus
  | subtract => .minus
  | multiply => .star
  | divide => .slash
  | remainder => .percent
  | power => .power

/-- The number that an item of a version is, if it is not infinite. -/
def VersionItem.value : VersionItem → Nat
  | whole n => n
  | infinite => 0

namespace Word

/-- Words that nothing can run together with. -/
def tight : List Word :=
  [mark .leftParen, mark .rightParen, mark .leftBracket, mark .rightBracket, mark .comma, newline]

/-- Words in parentheses. -/
def parenthesised (words : List Word) : List Word :=
  mark .leftParen :: (words ++ [mark .rightParen])

/-- The words of several things with a token of the given kind between two of them. -/
def separated (kind : Kind) : List (List Word) → List Word
  | [] => []
  | item :: items => item ++ items.flatMap (mark kind :: ·)

end Word

/-! ## Styles -/

/-- The ways of a printer. -/
structure Style where
  /-- Whether an expression is put in parentheses where it is an operand. -/
  wraps : Expr → Bool
  wraps_unary : ∀ operator operand location, wraps (.unary operator operand location)
  wraps_binary : ∀ operator lhs rhs location, wraps (.binary operator lhs rhs location)
  /-- How a character is written in a string. -/
  escape : Char → List Char
  escapes : Word.Escapes escape
  /-- What stands between two words. -/
  gap : Word → Word → List Char
  isBlank_of_mem_gap : ∀ w w', ∀ c ∈ gap w w', c = ' ' ∨ c = '\t'
  gap_ne_nil : ∀ w w', w ∉ Word.tight → w' ∉ Word.tight → gap w w' ≠ []
  /-- Whether the name of a mapping stands in front, with an equals sign. -/
  assigns : Statement → Bool
  /-- Whether a bundle is put in braces. -/
  braces : Statement → Bool

namespace Style

open Word

/-- A backslash in front of what cannot stand for itself in a string. -/
def plainEscape (c : Char) : List Char :=
  if c = '"' ∨ c = '\\' then ['\\', c] else [c]

theorem escapes_plainEscape : Escapes plainEscape := by
  intro c
  unfold plainEscape
  split
  · next h =>
    refine .inr ⟨c, rfl, ?_⟩
    rcases h with rfl | rfl <;> rfl
  · next h =>
    rw [not_or] at h
    exact .inl ⟨rfl, h⟩

/-- One blank between any two words, and no parentheses or braces that can be left out. -/
def plain : Style where
  wraps e :=
    match e with
    | .unary .. | .binary .. => true
    | _ => false
  wraps_unary _ _ _ := rfl
  wraps_binary _ _ _ _ := rfl
  escape := plainEscape
  escapes := escapes_plainEscape
  gap _ _ := [' ']
  isBlank_of_mem_gap _ _ _ h := .inl (List.mem_singleton.1 h)
  gap_ne_nil _ _ _ _ := List.cons_ne_nil _ _
  assigns _ := true
  braces _ := false

variable (style : Style)

/-! ## Expressions -/

mutual

/-- The words of an expression. -/
def expr : Expr → List Word
  | .integer value _ => [integer value]
  | .string value _ => [string style.escape value]
  | .json value _ => [json value]
  | .matrix rows _ =>
    mark .leftBracket ::
      (separated .semicolon (rows.map fun row => separated .comma (row.map fun e => expr e)) ++
        [mark .rightBracket])
  | .identifier id => [name id.name]
  | .call function args _ =>
    name function.name :: parenthesised (separated .comma (args.map fun e => expr e))
  | .index base entries _ =>
    (if style.wraps base then parenthesised (expr base) else expr base) ++
      mark .leftBracket ::
        (separated .comma (entries.map fun entry => indexEntry entry) ++ [mark .rightBracket])
  | .unary operator operand _ =>
    mark operator.kind ::
      if style.wraps operand then parenthesised (expr operand) else expr operand
  | .binary operator lhs rhs _ =>
    (if style.wraps lhs then parenthesised (expr lhs) else expr lhs) ++
      mark operator.kind :: if style.wraps rhs then parenthesised (expr rhs) else expr rhs
  | .float .. | .erroneous _ => []
termination_by e => sizeOf e
decreasing_by
  · exact Expr.sizeOf_lt_of_mem_rows ‹row ∈ rows› ‹e ∈ row› _
  all_goals decreasing_tactic

/-- The words of an index entry. -/
def indexEntry : IndexEntry → List Word
  | .item e _ => expr e
  | .range first last _ => expr first ++ mark .colon :: expr last
termination_by entry => sizeOf entry

end

/-- The words of an operand. -/
def operand (e : Expr) : List Word :=
  if style.wraps e then parenthesised (style.expr e) else style.expr e

/-! ## Programs -/

/-- The words of an annotation. -/
def annot (a : Annot) : List Word :=
  mark .atSign :: name a.interface.name :: mark .dot :: name a.operation.name ::
    if a.operands.isEmpty then []
    else parenthesised (separated .comma (a.operands.map style.expr))

/-- The words of an instruction. -/
def instruction (i : Instruction) : List Word :=
  match i.condition with
  | none =>
    name i.name.name ::
      (separated .comma (i.operands.map style.expr) ++ i.annotations.flatMap style.annot)
  | some e =>
    condition :: name i.name.name ::
      (separated .comma ((e :: i.operands).map style.expr) ++ i.annotations.flatMap style.annot)

/-- The words of a statement. -/
def statement (s : Statement) : List Word :=
  match s with
  | .mapping target e annotations _ =>
    mark .map ::
      ((if style.assigns s then name target.name :: mark .assign :: style.expr e
        else style.expr e ++ [mark .comma, name target.name]) ++
        annotations.flatMap style.annot)
  | .declaration names type annotations _ =>
    mark .var ::
      (separated .comma (names.map fun id => [name id.name]) ++
        mark .colon :: name type.name :: annotations.flatMap style.annot)
  | .subcircuit id iterations annotations _ =>
    mark .dot :: name id.name ::
      (iterations.elim [] (fun e => parenthesised (style.expr e)) ++
        annotations.flatMap style.annot)
  | .errorModel id args annotations _ =>
    mark .errorModel :: name id.name ::
      (args.flatMap (fun e => mark .comma :: style.expr e) ++ annotations.flatMap style.annot)
  | .bundle items _ =>
    if style.braces s then
      mark .leftBrace :: (separated .pipe (items.map style.instruction) ++ [mark .rightBrace])
    else separated .pipe (items.map style.instruction)
  | .erroneous _ => []

/-- The words of a program. The qubits clause and each statement start a line, and the last line is
ended, too. -/
def program : Program → List Word
  | .program version qubits statements _ =>
    mark .version :: versionNumber (version.items.map VersionItem.value) ::
      (qubits.elim [] (fun e => newline :: mark .qubits :: style.expr e) ++
        (statements.flatMap (fun s => newline :: style.statement s) ++ [newline]))
  | .erroneous _ => []

/-! ## Texts -/

/-- What stands between two words. Only the mark of a condition is glued to the word behind it. -/
def between (w w' : Word) : List Char :=
  if w = condition then [] else style.gap w w'

/-- Words as a text. -/
def spaced : List Word → List Char
  | [] => []
  | [w] => w.text
  | w :: w' :: words => w.text ++ (style.between w w' ++ spaced (w' :: words))

/-- The text of a program. -/
def print (p : Program) : String :=
  String.ofList (style.spaced (style.program p))

/-! ## Levels -/

/-- The largest of some numbers. -/
def deepest (levels : List Nat) : Nat :=
  levels.foldr max 0

mutual

/-- How many levels of expressions are nested inside the brackets and parentheses of an
expression. -/
def inner : Expr → Nat
  | .matrix rows _ => deepest (rows.map fun row => deepest (row.map fun e => inner e + 1))
  | .call _ args _ => deepest (args.map fun e => inner e + 1)
  | .index base entries _ =>
    max (inner base + if style.wraps base then 1 else 0)
      (deepest (entries.map fun entry => innerEntry entry))
  | .unary _ operand _ => inner operand + if style.wraps operand then 1 else 0
  | .binary _ lhs rhs _ =>
    max (inner lhs + if style.wraps lhs then 1 else 0)
      (inner rhs + if style.wraps rhs then 1 else 0)
  | .integer .. | .float .. | .string .. | .json .. | .identifier _ | .erroneous _ => 0
termination_by e => sizeOf e
decreasing_by
  · exact Expr.sizeOf_lt_of_mem_rows ‹row ∈ rows› ‹e ∈ row› _
  all_goals decreasing_tactic

/-- The same for an index entry, which is between the brackets. -/
def innerEntry : IndexEntry → Nat
  | .item e _ => inner e + 1
  | .range first last _ => max (inner first + 1) (inner last + 1)
termination_by entry => sizeOf entry

end

/-- How many levels of expressions are nested in a printed expression, its own included. -/
def levels (e : Expr) : Nat :=
  style.inner e + 1

end Style

/-! ## What can be printed -/

/-- The expressions that an annotation is made of. -/
def Annot.exprs (a : Annot) : List Expr :=
  a.operands

/-- The expressions that an instruction is made of. -/
def Instruction.exprs (i : Instruction) : List Expr :=
  i.condition.toList ++ (i.operands ++ i.annotations.flatMap Annot.exprs)

/-- The expressions that a statement is made of. -/
def Statement.exprs : Statement → List Expr
  | mapping _ e annotations _ => e :: annotations.flatMap Annot.exprs
  | declaration _ _ annotations _ => annotations.flatMap Annot.exprs
  | subcircuit _ iterations annotations _ =>
    iterations.toList ++ annotations.flatMap Annot.exprs
  | errorModel _ args annotations _ => args ++ annotations.flatMap Annot.exprs
  | bundle items _ => items.flatMap Instruction.exprs
  | erroneous _ => []

/-- The expressions that a program is made of, those inside others apart. -/
def Program.exprs : Program → List Expr
  | program _ qubits statements _ => qubits.toList ++ statements.flatMap Statement.exprs
  | erroneous _ => []

/-- An expression that can be written down, whatever its parts are like. -/
def Expr.Printable : Expr → Prop
  | integer value _ => value ≤ largestInteger
  | json value _ => ¬['|', '}'] <:+: value.toList
  | matrix rows _ => rows ≠ [] ∧ ∀ row ∈ rows, row ≠ []
  | identifier id => Word.IsName id.name.toList
  | index _ entries _ => entries ≠ []
  | float .. | erroneous _ => False
  | string .. | call .. | unary .. | binary .. => True

/-- A node that can be written down, whatever is below it. -/
def Node.Printable : Node → Prop
  | expr e => e.Printable
  | version v => v.items ≠ [] ∧ ∀ item ∈ v.items, ∃ n < 2 ^ 53, item = .whole n
  | statement (.declaration names ..) => names ≠ []
  | statement (.bundle items _) => items ≠ []
  | statement (.erroneous _) | program (.erroneous _) => False
  | _ => True

theorem Node.Everywhere.isName {node : Node} {id : Identifier}
    (h : node.Everywhere Node.Printable) (hid : .expr (.identifier id) ∈ node.children) :
    Word.IsName id.name.toList :=
  (h.child hid).here

end Cqasm
