import Cqasm.Reader.Expression

/-!
# Reading statements

A statement is recognised by its first token and read to its last; what follows it must be a
separator or the end of the text. When anything in between is not as expected, reading the statement
fails as a whole: the rest of it is passed over, up to a separator outside of the braces it opened,
and a placeholder takes its place (`Parser.recover`). One broken statement therefore costs one
complaint, and the next statement is read as if nothing had happened.
-/

set_option autoImplicit false

namespace Cqasm

namespace Parser

/-! ## Parts of statements -/

/-- Reads an operand list in parentheses, if there is one. It may be empty. -/
def optionalOperands : Parser (List Expr) := do
  if ← accept .leftParen then
    let operands ← expressionsBefore .rightParen expression
    let _ ← expect .rightParen
    return operands
  else
    return []

/-- Reads what is left of an annotation behind its first token. -/
def annotTail (sign : Token) : Parser Annot := do
  let start ← locationOf sign
  let interface ← identifier
  let _ ← expect .dot
  let operation ← identifier
  let operands ← optionalOperands
  return { interface, operation, operands, location := ← rangeFrom start }

/-- Reads any number of annotations. -/
def annotations : Parser (List Annot) :=
  manyAfter .atSign annotTail

/-- Reads the operands behind a condition, which a comma sets off from it. -/
def operandsAfterComma : Parser (List Expr) := do
  if ← accept .comma then expressionList expression
  else return []

/-- Reads the operands of an instruction without a condition, if any follow. -/
def plainOperands : Parser (List Expr) := do
  let token ← current
  if startsExpression token.kind then expressionList expression
  else return []

/-- Reads an instruction behind the mark of a condition. -/
def conditionalInstruction (start : Location) : Parser Instruction := do
  let name ← identifier
  let condition ← expression
  let operands ← operandsAfterComma
  let annotations ← annotations
  return { name, condition := some condition, operands, annotations, location := ← rangeFrom start }

/-- Reads an instruction without a condition. -/
def plainInstruction (start : Location) : Parser Instruction := do
  let name ← identifier
  let operands ← plainOperands
  let annotations ← annotations
  return { name, condition := none, operands, annotations, location := ← rangeFrom start }

/-- Reads an instruction. -/
def instruction : Parser Instruction := do
  let start ← here
  if ← accept .conditionPrefix then conditionalInstruction start
  else plainInstruction start

/-! ## Bundles -/

/-- Reads instructions on one line, with bars between them. -/
def bundle : Parser Statement := do
  let start ← here
  let items ← separatedBy .pipe instruction
  return .bundle items (← rangeFrom start)

/-- What may stand between two instructions in braces: a bar, behind which another one must follow,
or a separator, behind which the bundle may also be over. -/
inductive BundleJoint where
  | bar
  | separator
  deriving DecidableEq, Repr

/-- The kinds of token that can stand between two instructions in braces. -/
def bundleJoint? : Kind → Option BundleJoint
  | .pipe => some .bar
  | .newline | .semicolon => some .separator
  | _ => none

/-- Reads the next instruction in braces, if the bundle is not over. -/
def bundleItem (joint : BundleJoint) : Parser (Option Instruction) := do
  pastSeparators
  let isOver ← isAt .rightBrace
  if joint = .separator && isOver then return none
  else return some (← instruction)

/-- Reads the closing brace of a bundle. At the end of the text another instruction is missed before
the brace is. -/
def bundleEnd : Parser Unit := do
  if ← isAt .eof then failExpecting (.oneOf [.identifier])
  else
    let _ ← expect .rightBrace

/-- Reads the instructions of a bundle in braces, and the closing brace. -/
def bracedItems : Parser (List Instruction) := do
  pastSeparators
  let first ← instruction
  let rest ← many bundleJoint? fun joint _ => bundleItem joint
  bundleEnd
  return first :: rest.filterMap id

/-- Reads instructions in braces. -/
def bracedBundle : Parser Statement := do
  let start ← here
  advance
  let items ← insideBraces bracedItems
  return .bundle items (← rangeFrom start)

/-! ## Statements with a keyword -/

/-- Reads the equals sign behind a name that is given to what follows, and yields the name. An
expression that is no name is left as it is, and so is a name with anything else behind it. -/
def assignedName (first : Expr) : Parser (Option Identifier) := do
  match first with
  | .identifier name => if ← accept .assign then return some name else return none
  | _ => return none

/-- Reads what gives a name to an expression. The name stands in front of an equals sign, or behind
a comma; in front, parentheses around it make no difference. -/
def mapping : Parser Statement := do
  let start ← here
  advance
  let first ← expression
  match ← assignedName first with
  | some target =>
    let expr ← expression
    let annotations ← annotations
    return .mapping target expr annotations (← rangeFrom start)
  | none =>
    let _ ← expectOneOf [.comma, .assign] .comma
    let target ← identifier
    let annotations ← annotations
    return .mapping target first annotations (← rangeFrom start)

/-- Reads a declaration of variables. -/
def declaration : Parser Statement := do
  let start ← here
  advance
  let names ← separatedBy .comma identifier
  let _ ← expectOneOf [.comma, .colon] .colon
  let type ← identifier
  let annotations ← annotations
  return .declaration names type annotations (← rangeFrom start)

/-- Reads how often a subcircuit is run, if that is given. -/
def optionalIterations : Parser (Option Expr) := do
  if ← accept .leftParen then
    let iterations ← expression
    let _ ← expect .rightParen
    return some iterations
  else
    return none

/-- Reads the head of a subcircuit. -/
def subcircuit : Parser Statement := do
  let start ← here
  advance
  let name ← identifier
  let iterations ← optionalIterations
  let annotations ← annotations
  return .subcircuit name iterations annotations (← rangeFrom start)

/-- Reads an error model. -/
def errorModel : Parser Statement := do
  let start ← here
  advance
  let name ← identifier
  let args ← manyAfter .comma fun _ => expression
  let annotations ← annotations
  return .errorModel name args annotations (← rangeFrom start)

/-! ## Any statement -/

/-- Reads the statement that a token of the given kind begins. -/
def statementAt (kind : Kind) : Parser Statement :=
  match kind with
  | .map => mapping
  | .var => declaration
  | .dot => subcircuit
  | .errorModel => errorModel
  | .leftBrace => bracedBundle
  | .identifier | .conditionPrefix => bundle
  | _ => failExpecting .statement

/-- Reads a statement. -/
def statement : Parser Statement := do
  let token ← current
  statementAt token.kind

/-- Reads something that must be followed by a separator. -/
def terminated {α : Type} (p : Parser α) : Parser α := do
  let value ← p
  statementEnd
  return value

end Parser

/-! ## Recovery -/

/-- What was read where reading may fail: a value, perhaps a placeholder, the diagnostic if it is
one, and where reading goes on. -/
structure Recovered (α : Type) where
  value : α
  error : Option Diagnostic
  cursor : Cursor

/-- Reads from a cursor on. After a failure the rest of the statement is passed over, and a
placeholder for all of it is the value. -/
def Parser.recover {α : Type} (p : Parser α) (placeholder : Location → α) (file : String)
    (c : Cursor) : Recovered α :=
  match p.run file c with
  | .ok value c => { value, error := none, cursor := c }
  | .failed failure stuck =>
    let behind := stuck.skipStatement failure.openBraces
    { value := placeholder (behind.rangeFrom file (c.current.location file))
      error := some (.misplaced stuck.current failure.complaint)
      cursor := behind }

end Cqasm
