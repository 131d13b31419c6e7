import Cqasm.Proofs.Machine.Scanner
import Cqasm.Reader.Program

/-!
# The grammar step by step

`Parser` reads from a cursor, and how deep it is in braces and expressions is part of its arguments
and outcomes. The grammar as it runs has a token at hand instead, which it asks a scanner for, and
counts braces and expressions in two variables. A broken statement is left by throwing, from
wherever it is noticed.

Beside its own variables the state keeps an account of the run that nothing in the run looks at: the
calls for expressions that are not over, the number of tokens passed, and a `Moment` for every time
the grammar looks at a token, passes one, complains of one, or goes from one part of its work to the
next.
-/

set_option autoImplicit false

namespace Cqasm.Machine

/-- What the grammar is about to do, or where in its work it is. -/
inductive Event where
  /-- It looks at the token at hand. -/
  | looks
  /-- It passes a token of this kind. -/
  | passes (kind : Kind)
  /-- It complains of the token at hand. -/
  | complains
  /-- It starts to read a statement. -/
  | begins
  /-- It starts to skip what is left of one. -/
  | givesUp
  /-- The loop over the statements starts a turn. -/
  | iterates
  /-- A loop goes into another turn. In the last one it passed so many tokens. -/
  | turns (passed : Nat)
  deriving DecidableEq, Repr

/-- An event, and how the counters stood when it came. -/
structure Moment where
  event : Event
  /-- The calls for expressions in progress: those that are past the check of their depth. -/
  activations : Nat
  expressionDepth : Int
  braceDepth : Int
  deriving DecidableEq, Repr

/-- The state of the grammar. -/
structure Reader (S : Type) where
  scanner : Scanner S
  current : Token
  /-- The last token passed that is not a separator. -/
  previous : Option Token
  braceDepth : Int
  expressionDepth : Int
  activations : Nat
  passed : Nat
  /-- What has happened, the latest first. -/
  history : List Moment

namespace Reader

variable {S α β γ τ : Type}

/-- The grammar before it has asked for a token. -/
def start (input : S) : Reader S :=
  { scanner := .start input, current := .atEnd .start, previous := none, braceDepth := 0
    expressionDepth := 0, activations := 0, passed := 0, history := [] }

/-- An event as it stands to the counters. -/
def moment (r : Reader S) (event : Event) : Moment :=
  { event, activations := r.activations, expressionDepth := r.expressionDepth
    braceDepth := r.braceDepth }

/-- Puts an event down. -/
def note (event : Event) : Action (Reader S) Unit :=
  modify fun r => { r with history := r.moment event :: r.history }

/-- Lets the scanner do something. -/
def scanning (m : Action (Scanner S) α) : Action (Reader S) α := fun r =>
  match m r.scanner with
  | none => none
  | some (outcome, scanner) => some (outcome, { r with scanner })

/-- Carries an action out as a call of its own. However the call is left, it is over then. -/
def within (m : Action (Reader S) α) : Action (Reader S) α := fun r =>
  match m { r with activations := r.activations + 1 } with
  | none => none
  | some (outcome, t) => some (outcome, { t with activations := r.activations })

/-- Carries an action out and changes the state at last, even if the action is interrupted. -/
def ensuring (m : Action (Reader S) α) (change : Reader S → Reader S) : Action (Reader S) α :=
  fun r =>
    match m r with
    | none => none
    | some (outcome, t) => some (outcome, change t)

/-- An action that may be left because of a misread token. -/
def attempt (m : Action (Reader S) α) : Action (Reader S) (Option α) :=
  tryCatch (do return some (← m)) fun
    | .misread => return none
    | interrupt => throw interrupt

/-- A loop, of which every turn is put down that is not the last. -/
def repeating (turn : β → Action (Reader S) (β ⊕ γ)) : β → Action (Reader S) γ :=
  Action.loop fun b => do
    let before := (← get).passed
    let next ← turn b
    if next.isLeft then note (.turns ((← get).passed - before))
    return next

variable (host : Host S)

/-! ## Tokens -/

/-- The token at hand. -/
def look : Action (Reader S) Token := do
  note .looks
  return (← get).current

/-- Whether the token at hand is of a kind. -/
def isAt (kind : Kind) : Action (Reader S) Bool := do
  return (← look).kind = kind

/-- The range of the token at hand. -/
def here : Action (Reader S) Location := do
  return (← look).location host.file

/-- The range from `start` up to the last token passed. -/
def rangeFrom (start : Location) : Action (Reader S) Location := do
  match (← get).previous with
  | some token => return start.through (token.location host.file)
  | none => return start

/-- Passes the token at hand and yields it. The end of the text is not passed. -/
def advance : Action (Reader S) Token := do
  let token := (← get).current
  if token.kind = .eof then return token
  else
    note (.passes token.kind)
    modify fun r => { r with previous := Cursor.passed r.previous token }
    let next ← scanning (Scanner.nextToken host)
    modify fun r => { r with current := next, passed := r.passed + 1 }
    return token

/-- Complains of the token at hand. -/
def complain (complaint : Complaint) : Action (Reader S) α := do
  note .complains
  scanning (Scanner.report host (.misplaced (← get).current complaint))
  throw .misread

/-- Complains that the token at hand is not what was expected. -/
def failExpecting (expectation : Expectation) : Action (Reader S) α :=
  complain host (.expected expectation)

/-- Passes a token of the given kind if one is at hand, and tells whether there was one. -/
def accept (kind : Kind) : Action (Reader S) Bool := do
  if ← isAt kind then
    let _ ← advance host
    return true
  else return false

/-- Passes a token of the given kind, which has to be at hand. -/
def expectOneOf (kinds : List Kind) (kind : Kind) : Action (Reader S) Token := do
  if ← isAt kind then advance host
  else failExpecting host (.oneOf kinds)

def expect (kind : Kind) : Action (Reader S) Token :=
  expectOneOf host [kind] kind

/-- Whether a statement may end here. -/
def atSeparator : Action (Reader S) Bool := do
  return (← look).kind.endsStatement

def requireSeparator : Action (Reader S) Unit := do
  if ← atSeparator then return ()
  else failExpecting host (.oneOf [.newline, .semicolon])

/-! ## Loops over tokens -/

/-- As long as the token at hand starts something, passes it and goes on with what is behind. -/
def whileAt (starts : Kind → Option τ) (turn : β → τ → Token → Action (Reader S) β) :
    β → Action (Reader S) β :=
  repeating fun b => do
    match starts (← look).kind with
    | none => return .inr b
    | some tag =>
      let token ← advance host
      return .inl (← turn b tag token)

/-- Adds to a list what is read behind each token that starts an item. -/
def collecting (starts : Kind → Option τ) (item : τ → Token → Action (Reader S) α) :
    List α → Action (Reader S) (List α) :=
  whileAt host starts fun items tag token => do
    return items ++ [← item tag token]

/-- Nothing but tokens of one kind. -/
def only (kind : Kind) : Kind → Option Unit :=
  fun k => if k = kind then some () else none

/-- One item or more, with a token of the given kind between two of them. -/
def separatedBy (kind : Kind) (item : Action (Reader S) α) : Action (Reader S) (List α) := do
  let first ← item
  collecting host (only kind) (fun _ _ => item) [first]

def skipSeparators : Action (Reader S) Unit :=
  whileAt host (fun kind => if kind.isSeparator then some () else none)
    (fun () () _ => return ()) ()

def skipNewlines : Action (Reader S) Unit :=
  whileAt host (only .newline) (fun () () _ => return ()) ()

/-! ## Expressions

`sub` reads the expressions inside an expression. -/

def identifier : Action (Reader S) Identifier := do
  let token ← expect host .identifier
  return { name := String.ofList token.text, location := token.location host.file }

def expressionsBefore (closing : Kind) (sub : Action (Reader S) Expr) :
    Action (Reader S) (List Expr) := do
  if ← isAt closing then return []
  else separatedBy host .comma sub

/-- One element of a matrix, behind rows that are over and the elements before it in its row. What
follows tells whether the row goes on, another one begins or the matrix is over. -/
def matrixTurn (sub : Action (Reader S) Expr) (before : List (List Expr) × List Expr) :
    Action (Reader S) (List (List Expr) × List Expr ⊕ List (List Expr)) := do
  let (rows, row) := before
  let row := row ++ [← sub]
  skipNewlines host
  if ← accept host .comma then
    skipNewlines host
    return .inl (rows, row)
  else if ← accept host .semicolon then
    skipNewlines host
    return .inl (rows ++ [row], [])
  else return .inr (rows ++ [row])

def matrix (sub : Action (Reader S) Expr) : Action (Reader S) Expr := do
  let start ← here host
  let _ ← advance host
  skipNewlines host
  let rows ← repeating (matrixTurn host sub) ([], [])
  let _ ← expectOneOf host [.comma, .semicolon, .rightBracket] .rightBracket
  return .matrix rows (← rangeFrom host start)

def identifierOrCall (sub : Action (Reader S) Expr) : Action (Reader S) Expr := do
  let start ← here host
  let name ← identifier host
  if ← accept host .leftParen then
    let args ← expressionsBefore host .rightParen sub
    let _ ← expectOneOf host [.comma, .rightParen] .rightParen
    return .call name args (← rangeFrom host start)
  else return .identifier name

def parenthesised (sub : Action (Reader S) Expr) : Action (Reader S) Expr := do
  let start ← here host
  let _ ← advance host
  let inner ← sub
  let _ ← expect host .rightParen
  return inner.withLocation (← rangeFrom host start)

def integerLiteral : Action (Reader S) Expr := do
  let token ← look
  let value := Literal.natValue token.text
  if largestInteger < value then complain host .integerOutOfRange
  else
    let _ ← advance host
    return .integer value (token.location host.file)

def literal (make : List Char → Location → Expr) : Action (Reader S) Expr := do
  let token ← advance host
  return make token.text (token.location host.file)

def primary (sub : Action (Reader S) Expr) : Action (Reader S) Expr := do
  match (← look).kind with
  | .integer => integerLiteral host
  | .float => literal host fun text location => .float (Expr.floatValue text) location
  | .string =>
    literal host fun text location => .string (String.ofList (Literal.stringValue text)) location
  | .json =>
    literal host fun text location => .json (String.ofList (Literal.jsonValue text)) location
  | .identifier => identifierOrCall host sub
  | .leftParen => parenthesised host sub
  | .leftBracket => matrix host sub
  | _ => failExpecting host .expression

def indexEntry (sub : Action (Reader S) Expr) : Action (Reader S) IndexEntry := do
  let first ← sub
  if ← accept host .colon then
    let last ← sub
    return .range first last (first.location.through last.location)
  else return .item first first.location

/-- An expression, and the indices behind it. -/
def indexed (sub : Action (Reader S) Expr) : Action (Reader S) Expr := do
  let base ← primary host sub
  whileAt host (only .leftBracket)
    (fun e () _ => do
      let entries ← separatedBy host .comma (indexEntry host sub)
      let _ ← expectOneOf host [.comma, .rightBracket] .rightBracket
      return .index e entries (← rangeFrom host e.location))
    base

def unary (sub : Action (Reader S) Expr) : Action (Reader S) Expr := do
  let operators ← collecting host unaryOperator?
    (fun operator token => return (operator, token.location host.file)) []
  return (← indexed host sub).applied operators

end Reader

/-- Powers group to the right: what is behind the operator is a power again. -/
def Action.power {S : Type} (operand : Action (Reader S) Expr) (host : Host S) :
    Action (Reader S) Expr := do
  let lhs ← operand
  match powerOperator? (← Reader.look).kind with
  | none => return lhs
  | some operator =>
    let _ ← Reader.advance host
    let rhs ← operand |>.power host
    return lhs.joined operator rhs
partial_fixpoint

namespace Reader

variable {S α : Type} (host : Host S)

def leftAssociative (operator? : Kind → Option BinaryOperator) (operand : Action (Reader S) Expr) :
    Action (Reader S) Expr := do
  let first ← operand
  whileAt host operator? (fun lhs operator _ => do return lhs.joined operator (← operand)) first

/-- An expression by way of all its layers. -/
def layers (sub : Action (Reader S) Expr) : Action (Reader S) Expr :=
  leftAssociativeLevels.foldr (leftAssociative host) ((unary host sub).power host)

/-- An expression, where so many calls for one have room inside each other. -/
def expression : (frames : Nat) → Action (Reader S) Expr
  | 0 => Action.diverge
  | frames + 1 => do
    if maxNesting ≤ (← get).expressionDepth then complain host .nestedTooDeep
    else
      within do
        modify fun r => { r with expressionDepth := r.expressionDepth + 1 }
        ensuring (layers host (expression frames)) fun r =>
          { r with expressionDepth := r.expressionDepth - 1 }

/-! ## Statements

`expr` reads an expression. -/

section

variable (expr : Action (Reader S) Expr)

def optionalOperands : Action (Reader S) (List Expr) := do
  if ← accept host .leftParen then
    let operands ← expressionsBefore host .rightParen expr
    let _ ← expect host .rightParen
    return operands
  else return []

def annotations : Action (Reader S) (List Annot) :=
  collecting host (only .atSign)
    (fun () sign => do
      let interface ← identifier host
      let _ ← expect host .dot
      let operation ← identifier host
      let operands ← optionalOperands host expr
      let location ← rangeFrom host (sign.location host.file)
      return { interface, operation, operands, location })
    []

def operandsAfterComma : Action (Reader S) (List Expr) := do
  if ← accept host .comma then separatedBy host .comma expr
  else return []

def plainOperands : Action (Reader S) (List Expr) := do
  if startsExpression (← look).kind then separatedBy host .comma expr
  else return []

def instruction : Action (Reader S) Instruction := do
  let start ← here host
  if ← accept host .conditionPrefix then
    let name ← identifier host
    let condition ← expr
    let operands ← operandsAfterComma host expr
    let annotations ← annotations host expr
    let location ← rangeFrom host start
    return { name, condition := some condition, operands, annotations, location }
  else
    let name ← identifier host
    let operands ← plainOperands host expr
    let annotations ← annotations host expr
    let location ← rangeFrom host start
    return { name, condition := none, operands, annotations, location }

def bundle : Action (Reader S) Statement := do
  let start ← here host
  let items ← separatedBy host .pipe (instruction host expr)
  return .bundle items (← rangeFrom host start)

/-- What comes behind the instructions in braces so far: another one, or the end of them. -/
def bundleTurn (items : List Instruction) :
    Action (Reader S) (List Instruction ⊕ List Instruction) := do
  if ← accept host .pipe then
    skipSeparators host
    return .inl (items ++ [← instruction host expr])
  else if ← atSeparator then
    skipSeparators host
    if ← isAt .rightBrace then return .inr items
    else return .inl (items ++ [← instruction host expr])
  else return .inr items

/-- The instructions in braces, up to where the closing brace should be. -/
def openItems : Action (Reader S) (List Instruction) := do
  skipSeparators host
  let first ← instruction host expr
  repeating (bundleTurn host expr) [first]

/-- The instructions in braces, and the closing brace. -/
def bracedItems : Action (Reader S) (List Instruction) := do
  modify fun r => { r with braceDepth := r.braceDepth + 1 }
  let items ← openItems host expr
  let _ ← expect host .rightBrace
  modify fun r => { r with braceDepth := r.braceDepth - 1 }
  return items

def bracedBundle : Action (Reader S) Statement := do
  let start ← here host
  let _ ← advance host
  let items ← bracedItems host expr
  return .bundle items (← rangeFrom host start)

def assignedName (first : Expr) : Action (Reader S) (Option Identifier) := do
  match first with
  | .identifier name => if ← accept host .assign then return some name else return none
  | _ => return none

def mapping : Action (Reader S) Statement := do
  let start ← here host
  let _ ← advance host
  let first ← expr
  match ← assignedName host first with
  | some target =>
    let e ← expr
    let annotations ← annotations host expr
    return .mapping target e annotations (← rangeFrom host start)
  | none =>
    let _ ← expectOneOf host [.comma, .assign] .comma
    let target ← identifier host
    let annotations ← annotations host expr
    return .mapping target first annotations (← rangeFrom host start)

def declaration : Action (Reader S) Statement := do
  let start ← here host
  let _ ← advance host
  let names ← separatedBy host .comma (identifier host)
  let _ ← expectOneOf host [.comma, .colon] .colon
  let type ← identifier host
  let annotations ← annotations host expr
  return .declaration names type annotations (← rangeFrom host start)

def optionalIterations : Action (Reader S) (Option Expr) := do
  if ← accept host .leftParen then
    let iterations ← expr
    let _ ← expect host .rightParen
    return some iterations
  else return none

def subcircuit : Action (Reader S) Statement := do
  let start ← here host
  let _ ← advance host
  let name ← identifier host
  let iterations ← optionalIterations host expr
  let annotations ← annotations host expr
  return .subcircuit name iterations annotations (← rangeFrom host start)

def errorModel : Action (Reader S) Statement := do
  let start ← here host
  let _ ← advance host
  let name ← identifier host
  let args ← collecting host (only .comma) (fun () _ => expr) []
  let annotations ← annotations host expr
  return .errorModel name args annotations (← rangeFrom host start)

def statement : Action (Reader S) Statement := do
  match (← look).kind with
  | .map => mapping host expr
  | .var => declaration host expr
  | .dot => subcircuit host expr
  | .errorModel => errorModel host expr
  | .leftBrace => bracedBundle host expr
  | .identifier | .conditionPrefix => bundle host expr
  | _ => failExpecting host .statement

def terminated (m : Action (Reader S) α) : Action (Reader S) α := do
  let value ← m
  requireSeparator host
  return value

/-! ## Recovery -/

/-- How many braces are left open behind a token. -/
def openedBehind (opened : Int) (kind : Kind) : Int :=
  match kind with
  | .leftBrace => opened + 1
  | .rightBrace => if 0 < opened then opened - 1 else opened
  | _ => opened

/-- Skips a token of a broken statement, unless the statement ends in front of it. -/
def skipTurn (opened : Int) : Action (Reader S) (Int ⊕ Unit) := do
  let token ← look
  if token.kind = .eof || (opened = 0 && token.kind.endsStatement) then return .inr ()
  else
    let _ ← advance host
    return .inl (openedBehind opened token.kind)

/-- Skips the rest of a broken statement, up to a separator outside of the braces that the statement
left open. -/
def skipToSeparator : Action (Reader S) Unit := do
  note .givesUp
  let opened := (← get).braceDepth
  modify ({ · with braceDepth := 0 })
  repeating (skipTurn host) opened

/-- Reads a statement, or part of a program that is treated like one. If it is broken, its rest is
skipped and a placeholder stands for it. -/
def recovering (placeholder : Location → α) (m : Action (Reader S) α) : Action (Reader S) α := do
  let start ← here host
  note .begins
  match ← attempt m with
  | some value => return value
  | none =>
    skipToSeparator host
    return placeholder (← rangeFrom host start)

/-! ## Programs -/

def version : Action (Reader S) Version := do
  let start ← here host
  let _ ← expect host .version
  let number ← expect host .versionNumber
  let location ← rangeFrom host start
  return { items := (Literal.versionNumbers number.text).map .ofNat, location }

/-- Whether there have been too many diagnostics to go on. -/
def aborted : Action (Reader S) Bool := do
  return host.isExhaustedBy (← get).scanner.reports.length

def drainTurn : Unit → Action (Reader S) (Unit ⊕ Unit)
  | () => do
    if ← isAt .eof then return .inr ()
    else
      let _ ← advance host
      return .inl ()

/-- What is left of a program without a readable version. -/
def brokenRoot (start : Location) : Action (Reader S) Root := do
  let location := start.through (← here host)
  if !(← aborted host) then
    note .givesUp
    repeating (drainTurn host) ()
  return Reading.rootOf (.erroneous location)

/-- A placeholder for what stands behind the version where a separator should. -/
def versionEnd : Action (Reader S) (List Statement) := do
  if ← atSeparator then return []
  else
    recovering host (fun range => [.erroneous range])
      (failExpecting host (.oneOf [.newline, .semicolon]))

def qubits : Action (Reader S) (Option Expr) := do
  if ← isAt .qubits then
    recovering host (fun range => some (.erroneous range)) <| terminated host do
      let _ ← advance host
      return some (← expr)
  else return none

/-- One statement behind others, unless there are no more to read. -/
def statementTurn (statements : List Statement) :
    Action (Reader S) (List Statement ⊕ List Statement) := do
  note .iterates
  skipSeparators host
  if (← isAt .eof) || (← aborted host) then return .inr statements
  else
    return .inl (statements ++
      [← recovering host .erroneous (terminated host (statement host expr))])

end

/-- What follows a readable version. -/
def behindVersion (frames : Nat) (start : Location) (version : Version) :
    Action (Reader S) Root := do
  let broken ← versionEnd host
  skipSeparators host
  let count ← qubits host (expression host frames)
  let statements ← repeating (statementTurn host (expression host frames)) broken
  return Reading.rootOf (.program version count statements (← rangeFrom host start))

/-- Reads a program from the token at hand on, where so many calls for an expression have room
inside each other. -/
def run (frames : Nat) : Action (Reader S) Root := do
  skipSeparators host
  let start ← here host
  match ← attempt (version host) with
  | some version => behindVersion host frames start version
  | none => brokenRoot host start

/-- Reads the program that a scanner delivers. -/
def parse (frames : Nat) : Action (Reader S) Root := do
  let first ← scanning (Scanner.nextToken host)
  modify ({ · with current := first })
  run host frames

end Reader

end Cqasm.Machine
