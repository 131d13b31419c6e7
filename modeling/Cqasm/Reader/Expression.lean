import Cqasm.Reader.Parser
import Cqasm.Token.Literal
import Cqasm.Tree.Basic

/-!
# Reading expressions

Expressions are read in layers, the loosest operator first: seven levels of binary operators, then
operators in front, then indices behind, then what stands by itself. An operand of one layer is
whatever the next layer reads. Inside brackets, and wherever a comma separates, a whole expression
is read again, which is one level of nesting deeper; `Parser.expressionWithin n` reads down to `n`
levels and complains about the token at which one more would start.

A chain of operators of one level is read flat, as a first operand and a list of operators with the
operands behind them, and then folded up: to the left, or to the right for powers. Whether a
chain is read by a loop or by calls within calls makes no difference here, since how high the stack
of such calls becomes is left out of account.
-/

set_option autoImplicit false

namespace Cqasm

/-! ## Operators -/

/-- The binary levels below power, from the loosest on. -/
def leftAssociativeLevels : List (Kind → Option BinaryOperator) :=
  [fun | .orOr => some .or | _ => none,
    fun | .andAnd => some .and | _ => none,
    fun | .equal => some .equal | .notEqual => some .notEqual | _ => none,
    fun
      | .less => some .less
      | .lessEqual => some .lessEqual
      | .greater => some .greater
      | .greaterEqual => some .greaterEqual
      | _ => none,
    fun | .plus => some .add | .minus => some .subtract | _ => none,
    fun
      | .star => some .multiply
      | .slash => some .divide
      | .percent => some .remainder
      | _ => none]

/-- The tightest binary level. -/
def powerOperator? : Kind → Option BinaryOperator
  | .power => some .power
  | _ => none

/-- The operators in front of an operand. -/
def unaryOperator? : Kind → Option UnaryOperator
  | .minus => some .negate
  | .bang => some .not
  | .tilde => some .complement
  | _ => none

/-- The kinds of token that an expression can start with. -/
def startsExpression (kind : Kind) : Bool :=
  match kind with
  | .integer | .float | .string | .json | .identifier | .leftParen | .leftBracket => true
  | kind => (unaryOperator? kind).isSome

namespace Expr

/-- Two operands joined by an operator, as one expression over the range of both. -/
def joined (lhs : Expr) (operator : BinaryOperator) (rhs : Expr) : Expr :=
  .binary operator lhs rhs (lhs.location.through rhs.location)

/-- A chain of operators that group to the left. -/
def joinLeft (first : Expr) (rest : List (BinaryOperator × Expr)) : Expr :=
  rest.foldl (fun lhs (operator, rhs) => lhs.joined operator rhs) first

/-- A chain of operators that group to the right. -/
def joinRight (first : Expr) : List (BinaryOperator × Expr) → Expr
  | [] => first
  | (operator, next) :: rest => first.joined operator (joinRight next rest)

/-- An operand behind operators, the last of which stands nearest to it. Each comes with its own
range, where the expression it makes starts. -/
def applied (operators : List (UnaryOperator × Location)) (operand : Expr) : Expr :=
  operators.foldr
    (fun (operator, start) e => .unary operator e (start.through e.location)) operand

/-- An expression with indices behind it, each with the range of the bracket that closes it. -/
def indexed (base : Expr) (indices : List (List IndexEntry × Location)) : Expr :=
  indices.foldl (fun e (entries, close) => .index e entries (e.location.through close)) base

/-- The elements of a matrix as rows, the first row apart: a semicolon in front of an element opens
a new row, a comma does not. -/
def rowsFrom (first : Expr) : List (Bool × Expr) → List Expr × List (List Expr)
  | [] => ([first], [])
  | (opensRow, next) :: rest =>
    let later := rowsFrom next rest
    if opensRow then ([first], later.1 :: later.2) else (first :: later.1, later.2)

/-- The rows of a matrix with the given elements. -/
def rowsOf (first : Expr) (rest : List (Bool × Expr)) : List (List Expr) :=
  (rowsFrom first rest).1 :: (rowsFrom first rest).2

/-- The value of a float literal: its digits and its exponent as one decimal number, rounded
once. -/
def floatValue (text : List Char) : Binary64 :=
  let mantissa := text.takeWhile fun c => c ≠ 'e' && c ≠ 'E'
  let whole := mantissa.takeWhile Char.isDigit
  let fraction := (mantissa.drop whole.length).drop 1
  let exponent : Int :=
    match text.drop (mantissa.length + 1) with
    | '-' :: digits => -(Literal.natValue digits : Int)
    | '+' :: digits => Literal.natValue digits
    | digits => Literal.natValue digits
  .ofDecimal false (Literal.natValue (whole ++ fraction)) (exponent - fraction.length)

end Expr

namespace Parser

/-! ## What stands by itself -/

/-- Reads a name. -/
def identifier : Parser Identifier := do
  let token ← expect .identifier
  return { name := String.ofList token.text, location := ← locationOf token }

/-- Reads a list of expressions with commas between them. -/
def expressionList (sub : Parser Expr) : Parser (List Expr) :=
  separatedBy .comma sub

/-- Reads a list of expressions that a token of the given kind closes. It may be empty. -/
def expressionsBefore (closing : Kind) (sub : Parser Expr) : Parser (List Expr) := do
  if ← isAt closing then return []
  else expressionList sub

/-- Reads an element of a matrix with the newlines around it. -/
def matrixElement (sub : Parser Expr) : Parser Expr := do
  pastNewlines
  let e ← sub
  pastNewlines
  return e

/-- The kinds of token between the elements of a matrix, and whether they open a new row. -/
def elementSeparator? : Kind → Option Bool
  | .comma => some false
  | .semicolon => some true
  | _ => none

/-- Reads a matrix. -/
def matrix (sub : Parser Expr) : Parser Expr := do
  let start ← here
  advance
  let first ← matrixElement sub
  let rest ← many elementSeparator? fun opensRow _ => do
    return (opensRow, ← matrixElement sub)
  let _ ← expectOneOf [.comma, .semicolon, .rightBracket] .rightBracket
  return .matrix (Expr.rowsOf first rest) (← rangeFrom start)

/-- Reads a name, or a call if an argument list follows it. -/
def identifierOrCall (sub : Parser Expr) : Parser Expr := do
  let start ← here
  let name ← identifier
  if ← accept .leftParen then
    let args ← expressionsBefore .rightParen sub
    let _ ← expectOneOf [.comma, .rightParen] .rightParen
    return .call name args (← rangeFrom start)
  else
    return .identifier name

/-- Reads an expression in parentheses. It is the expression inside with the range of both
parentheses. -/
def parenthesised (sub : Parser Expr) : Parser Expr := do
  let start ← here
  advance
  let inner ← sub
  let _ ← expect .rightParen
  return inner.withLocation (← rangeFrom start)

/-- Reads an integer literal. One that is too large is complained about where it stands. -/
def integerLiteral : Parser Expr := do
  let token ← current
  let value := Literal.natValue token.text
  if largestInteger < value then fail .integerOutOfRange
  else
    advance
    return .integer value (← locationOf token)

/-- Reads a literal of one token. -/
def literal (make : List Char → Location → Expr) : Parser Expr := do
  let token ← current
  advance
  return make token.text (← locationOf token)

/-- Reads what needs no operator to stand by itself. -/
def primary (sub : Parser Expr) : Parser Expr := do
  let token ← current
  match token.kind with
  | .integer => integerLiteral
  | .float => literal fun text location => .float (Expr.floatValue text) location
  | .string =>
    literal fun text location => .string (String.ofList (Literal.stringValue text)) location
  | .json => literal fun text location => .json (String.ofList (Literal.jsonValue text)) location
  | .identifier => identifierOrCall sub
  | .leftParen => parenthesised sub
  | .leftBracket => matrix sub
  | _ => failExpecting .expression

/-! ## Layers -/

/-- Reads one entry of an index: a value, or a range of which both ends are given. -/
def indexEntry (sub : Parser Expr) : Parser IndexEntry := do
  let first ← sub
  if ← accept .colon then
    let last ← sub
    return .range first last (first.location.through last.location)
  else
    return .item first first.location

/-- Reads what is left of an index behind its opening bracket. -/
def indexTail (sub : Parser Expr) : Parser (List IndexEntry × Location) := do
  let entries ← separatedBy .comma (indexEntry sub)
  let close ← expectOneOf [.comma, .rightBracket] .rightBracket
  return (entries, ← locationOf close)

/-- Reads an expression with any number of indices behind it. -/
def indexed (sub : Parser Expr) : Parser Expr := do
  let base ← primary sub
  let indices ← manyAfter .leftBracket fun _ => indexTail sub
  return base.indexed indices

/-- Reads an expression with any number of operators in front of it. -/
def unary (sub : Parser Expr) : Parser Expr := do
  let operators ← many unaryOperator? fun operator token => do
    return (operator, ← locationOf token)
  return (← indexed sub).applied operators

/-- Reads operators of one level, each with the operand behind it. -/
def rightSides (operator? : Kind → Option BinaryOperator) (operand : Parser Expr) :
    Parser (List (BinaryOperator × Expr)) :=
  many operator? fun operator _ => do
    return (operator, ← operand)

/-- Reads powers. -/
def power (sub : Parser Expr) : Parser Expr := do
  let first ← unary sub
  let rest ← rightSides powerOperator? (unary sub)
  return first.joinRight rest

/-- Reads a chain of one level of binary operators that group to the left. -/
def leftAssociative (operator? : Kind → Option BinaryOperator) (operand : Parser Expr) :
    Parser Expr := do
  let first ← operand
  let rest ← rightSides operator? operand
  return first.joinLeft rest

/-- Reads an expression by way of all its layers; `sub` reads the expressions inside it. -/
def layers (sub : Parser Expr) : Parser Expr :=
  leftAssociativeLevels.foldr leftAssociative (power sub)

/-- Reads an expression in which no more than the given number of levels are nested. -/
def expressionWithin : (levels : Nat) → Parser Expr
  | 0 => fail .nestedTooDeep
  | levels + 1 => layers (expressionWithin levels)

/-- Reads an expression. -/
def expression : Parser Expr :=
  expressionWithin maxNesting

end Parser

end Cqasm
