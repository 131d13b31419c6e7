import Cqasm.Reader.Progress

/-!
# Reading programs

A program is a version, a qubits clause if there is one, and statements, each ended by a separator
or by the text. A broken version leaves nothing to go by and makes the whole program a placeholder.
Everything behind the version recovers on its own, so that a complaint and a placeholder always come
together.

Reading may be told to give up after too many diagnostics, those about characters included. It looks
at their number only between two statements, so what is read is always whole.
-/

set_option autoImplicit false

namespace Cqasm

/-! ## The head of a program -/

namespace Parser

/-- Reads the version of a program. -/
def version : Parser Version := do
  let start ← here
  let _ ← expect .version
  let number ← expect .versionNumber
  return { items := (Literal.versionNumbers number.text).map .ofNat, location := ← rangeFrom start }

/-- Reads nothing where a separator stands behind the version. Anything else is a broken
statement. -/
def versionEnd : Parser (List Statement) := do
  statementEnd
  return []

/-- Reads a qubits clause. -/
def qubits : Parser (Option Expr) := do
  advance
  let count ← expression
  return some count

end Parser

/-- Reads the qubits clause, if there is one. -/
def readQubits (file : String) (c : Cursor) : Recovered (Option Expr) :=
  if c.kind = .qubits then
    (Parser.terminated Parser.qubits).recover (fun range => some (.erroneous range)) file c
  else { value := none, error := none, cursor := c }

/-! ## Statements -/

/-- How many diagnostics reading puts up with. -/
structure Patience where
  /-- What is wrong with the characters of the text. -/
  lexical : List Diagnostic
  /-- Whether a number of diagnostics is too large to go on. -/
  isExhaustedBy : Nat → Bool

namespace Patience

/-- The diagnostics about characters that have come up once the token at hand has been looked at. -/
def lexicalUpTo (patience : Patience) (token : Token) : List Diagnostic :=
  patience.lexical.filter (·.offset ≤ token.start.offset)

/-- Whether to give up in front of a token after a number of complaints. -/
def isExhausted (patience : Patience) (complaints : Nat) (token : Token) : Bool :=
  patience.isExhaustedBy (complaints + (patience.lexicalUpTo token).length)

end Patience

/-- Statements that were read, the complaints about the broken ones, and where reading ended. -/
structure Body where
  statements : List Statement
  errors : List Diagnostic
  cursor : Cursor

/-- Reads statements to the end of the text, or until patience is exhausted; `complaints` is how
many there have been. -/
def readStatements (patience : Patience) (file : String) (complaints : Nat) (c : Cursor) : Body :=
  match _htokens : c.pastSeparators.tokens with
  | [] => { statements := [], errors := [], cursor := c.pastSeparators }
  | token :: _ =>
    if patience.isExhausted complaints token then
      { statements := [], errors := [], cursor := c.pastSeparators }
    else
      let read := (Parser.terminated Parser.statement).recover .erroneous file c.pastSeparators
      let rest :=
        readStatements patience file (complaints + read.error.toList.length) read.cursor
      { rest with
        statements := read.value :: rest.statements
        errors := read.error.toList ++ rest.errors }
termination_by c.size
decreasing_by
  have hkind : token.kind.isSeparator = false := by
    have hhead := List.head?_dropWhile_not (·.kind.isSeparator) c.tokens
    have : c.tokens.dropWhile (·.kind.isSeparator) = token :: _ := _htokens
    rw [this] at hhead
    simpa using hhead
  exact Nat.lt_of_lt_of_le (Parser.size_recover_statement_lt _htokens hkind)
    c.passes_pastSeparators.size_le

/-! ## Programs -/

/-- What was read of a text. -/
structure Reading where
  root : Root
  /-- The complaints of the grammar in order. -/
  errors : List Diagnostic
  /-- The token in front of which reading ended. -/
  stop : Token

namespace Reading

/-- A tree over a program, which has the same range. -/
def rootOf (program : Program) : Root :=
  { program, location := program.location }

/-- What is left of a program without a readable version: its start and the token that was stumbled
upon. Unless patience is exhausted, the rest of the text is looked through for what is wrong with
its characters. -/
def ofBrokenVersion (patience : Patience) (file : String) (start : Location) (failure : Failure)
    (stuck : Cursor) : Reading where
  root := rootOf (.erroneous (start.through (stuck.current.location file)))
  errors := [.misplaced stuck.current failure.complaint]
  stop := if patience.isExhausted 1 stuck.current then stuck.current else stuck.last

/-- What follows a readable version. -/
def ofVersion (patience : Patience) (file : String) (start : Location) (version : Version)
    (c : Cursor) : Reading :=
  let broken := Parser.versionEnd.recover (fun range => [.erroneous range]) file c
  let qubits := readQubits file broken.cursor.pastSeparators
  let errors := broken.error.toList ++ qubits.error.toList
  let body := readStatements patience file errors.length qubits.cursor
  { root :=
      rootOf (.program version qubits.value (broken.value ++ body.statements)
        (body.cursor.rangeFrom file start))
    errors := errors ++ body.errors
    stop := body.cursor.current }

/-- Reads a program. -/
def ofCursor (patience : Patience) (file : String) (c : Cursor) : Reading :=
  let c := c.pastSeparators
  let start := c.current.location file
  match Parser.version.run file c with
  | .ok version c => ofVersion patience file start version c
  | .failed failure stuck => ofBrokenVersion patience file start failure stuck

/-- The patience for the text of a stream. -/
def patienceFor (stream : TokenStream) (isExhaustedBy : Nat → Bool) : Patience :=
  { lexical := stream.diagnostics, isExhaustedBy }

/-- Reads the program that a stream holds. -/
def ofStream (isExhaustedBy : Nat → Bool) (file : String) (stream : TokenStream) : Reading :=
  ofCursor (patienceFor stream isExhaustedBy) file (.ofStream stream)

/-- Two series of diagnostics as one, each in the order of their places. In front of each complaint
stands whatever is wrong with the characters up to its token, the token's own included. -/
def interleave (lexical : List Diagnostic) : (complaints : List Diagnostic) → List Diagnostic
  | [] => lexical
  | complaint :: complaints =>
    lexical.takeWhile (·.offset ≤ complaint.offset) ++
      complaint :: interleave (lexical.dropWhile (·.offset ≤ complaint.offset)) complaints

/-- Everything that came up while reading, in the order in which it did. -/
def report (stream : TokenStream) (reading : Reading) : List Diagnostic :=
  interleave (stream.diagnostics.filter (·.offset ≤ reading.stop.start.offset)) reading.errors

end Reading

end Cqasm
