import Cqasm.Proofs.Grammar.Phrase
import Cqasm.Token.Literal
import Cqasm.Reader.Expression

/-!
# The grammar of expressions

One production per kind of operand and one per level of operators. A chain of binary operators of
one level groups to the left, which is a rule that calls itself on the left, and a chain of powers
groups to the right. The expressions inside an expression, in parentheses, brackets and argument
lists, are left open: they are a parameter `sub` of the productions.

Only `IsExpression` ties the knot, and counts while it does: `IsExpression file n` are the
expressions in which no more than `n` levels are nested.
-/

set_option autoImplicit false

namespace Cqasm.Grammar

variable (file : String)

/-- A name is one token. -/
inductive IsName : Phrase Identifier
  | mk {token : Token} :
      token.kind = .identifier →
      IsName [token] { name := String.ofList token.text, location := token.location file }

section Operands

variable (sub : Phrase Expr)

/-- `expr` or `expr ':' expr` -/
inductive IsEntry : Phrase IndexEntry
  | item {ts : List Token} {e : Expr} : sub ts e → IsEntry ts (.item e e.location)
  | range {ts us : List Token} {colon : Token} {first last : Expr} :
      sub ts first → colon.kind = .colon → sub us last →
      IsEntry (ts ++ colon :: us) (.range first last (first.location.through last.location))

/-- An element of a matrix may have newlines around it. -/
inductive IsElement : Phrase Expr
  | mk {before ts behind : List Token} {e : Expr} :
      Newlines before → sub ts e → Newlines behind → IsElement (before ++ ts ++ behind) e

/-- Semicolons separate the rows of a matrix, and commas the elements of a row. -/
def IsRows : Phrase (List (List Expr)) :=
  SeparatedBy .semicolon (SeparatedBy .comma (IsElement sub))

/-- What needs no operator to stand by itself. -/
inductive IsPrimary : Phrase Expr
  | integer {token : Token} :
      token.kind = .integer → Literal.natValue token.text ≤ largestInteger →
      IsPrimary [token] (.integer (Literal.natValue token.text) (token.location file))
  | float {token : Token} :
      token.kind = .float →
      IsPrimary [token] (.float (Expr.floatValue token.text) (token.location file))
  | string {token : Token} :
      token.kind = .string →
      IsPrimary [token]
        (.string (String.ofList (Literal.stringValue token.text)) (token.location file))
  | json {token : Token} :
      token.kind = .json →
      IsPrimary [token] (.json (String.ofList (Literal.jsonValue token.text)) (token.location file))
  | name {ts : List Token} {id : Identifier} : IsName file ts id → IsPrimary ts (.identifier id)
  | call {ts us : List Token} {opening closing : Token} {id : Identifier} {args : List Expr} :
      IsName file ts id → opening.kind = .leftParen → Listed sub us args →
      closing.kind = .rightParen →
      IsPrimary (ts ++ opening :: (us ++ [closing]))
        (.call id args (rangeOf file (ts ++ opening :: (us ++ [closing]))))
  | parenthesised {ts : List Token} {opening closing : Token} {e : Expr} :
      opening.kind = .leftParen → sub ts e → closing.kind = .rightParen →
      IsPrimary (opening :: (ts ++ [closing]))
        (e.withLocation (rangeOf file (opening :: (ts ++ [closing]))))
  | matrix {ts : List Token} {opening closing : Token} {rows : List (List Expr)} :
      opening.kind = .leftBracket → IsRows sub ts rows → closing.kind = .rightBracket →
      IsPrimary (opening :: (ts ++ [closing]))
        (.matrix rows (rangeOf file (opening :: (ts ++ [closing]))))

/-- Any number of indices stand behind an operand. -/
inductive IsPostfix : Phrase Expr
  | primary {ts : List Token} {e : Expr} : IsPrimary file sub ts e → IsPostfix ts e
  | index {ts us : List Token} {opening closing : Token} {e : Expr} {entries : List IndexEntry} :
      IsPostfix ts e → opening.kind = .leftBracket →
      SeparatedBy .comma (IsEntry sub) us entries → closing.kind = .rightBracket →
      IsPostfix (ts ++ opening :: (us ++ [closing]))
        (.index e entries (e.location.through (closing.location file)))

/-- Any number of operators stand in front of an operand with its indices. -/
inductive IsUnary : Phrase Expr
  | indexed {ts : List Token} {e : Expr} : IsPostfix file sub ts e → IsUnary ts e
  | operator {ts : List Token} {sign : Token} {operator : UnaryOperator} {e : Expr} :
      (sign.kind, operator) ∈ [(Kind.minus, .negate), (.bang, .not), (.tilde, .complement)] →
      IsUnary ts e →
      IsUnary (sign :: ts)
        (.unary operator e ((sign.location file).through e.location))

/-- Powers group to the right. -/
inductive IsPower : Phrase Expr
  | operand {ts : List Token} {e : Expr} : IsUnary file sub ts e → IsPower ts e
  | operator {ts us : List Token} {sign : Token} {lhs rhs : Expr} :
      IsUnary file sub ts lhs → sign.kind = .power → IsPower us rhs →
      IsPower (ts ++ sign :: us) (.binary .power lhs rhs (lhs.location.through rhs.location))

end Operands

/-- The operators of one level group to the left. -/
inductive IsChain (operators : List (Kind × BinaryOperator)) (operand : Phrase Expr) : Phrase Expr
  | operand {ts : List Token} {e : Expr} : operand ts e → IsChain operators operand ts e
  | operator {ts us : List Token} {sign : Token} {operator : BinaryOperator} {lhs rhs : Expr} :
      IsChain operators operand ts lhs → (sign.kind, operator) ∈ operators → operand us rhs →
      IsChain operators operand (ts ++ sign :: us)
        (.binary operator lhs rhs (lhs.location.through rhs.location))

/-- The levels of operators that group to the left, the loosest first. -/
def leftLevels : List (List (Kind × BinaryOperator)) :=
  [[(.orOr, .or)],
    [(.andAnd, .and)],
    [(.equal, .equal), (.notEqual, .notEqual)],
    [(.less, .less), (.lessEqual, .lessEqual), (.greater, .greater),
      (.greaterEqual, .greaterEqual)],
    [(.plus, .add), (.minus, .subtract)],
    [(.star, .multiply), (.slash, .divide), (.percent, .remainder)]]

/-- Any expression, given those inside it. -/
def IsLayered (sub : Phrase Expr) : Phrase Expr :=
  leftLevels.foldr IsChain (IsPower file sub)

/-- The expressions in which at most the given number of levels are nested. -/
def IsExpression : (levels : Nat) → Phrase Expr
  | 0 => fun _ _ => False
  | levels + 1 => IsLayered file (IsExpression levels)

end Cqasm.Grammar
