import Cqasm.Token.Basic

/-!
# Diagnostics

What can be wrong with a text, as causes rather than as messages. Two causes are lexical: a
character that starts no token, and a literal that never ends. The others say why a token cannot
stand where it does. `Diagnostic.message` is the one place where any of them is put into words.

Every diagnostic belongs to a place of the text (`Diagnostic.offset`), and it is in the order of
these places that diagnostics are reported.
-/

set_option autoImplicit false

namespace Cqasm

/-- What a text would have to go on with. -/
inductive Expectation where
  /-- A token of one of these kinds. -/
  | oneOf (kinds : List Kind)
  | statement
  | expression
  deriving DecidableEq, Repr, Inhabited

namespace Expectation

/-- Alternatives in a row, the last one set off by "or". -/
def alternatives : List String → String
  | [] => ""
  | [only] => only
  | [left, right] => left ++ " or " ++ right
  | left :: rest => left ++ ", " ++ alternatives rest

/-- An expectation in words. -/
def text : Expectation → String
  | oneOf kinds => alternatives (kinds.map Kind.name)
  | statement => "statement"
  | expression => "expression"

end Expectation

/-- Why the token at hand cannot stand where it does. -/
inductive Complaint where
  | expected (expectation : Expectation)
  | nestedTooDeep
  | integerOutOfRange
  deriving DecidableEq, Repr, Inhabited

/-- Expressions inside expressions are accepted down to this many levels. -/
def maxNesting : Nat := 256

/-- Integer literals are accepted up to this value, the largest with 63 bits. -/
def largestInteger : Nat := 0x7fffffffffffffff

/-- One thing that is wrong with a text. -/
inductive Diagnostic where
  | stray (c : Char) (place : Position)
  | unterminated (literal : Token)
  | misplaced (token : Token) (complaint : Complaint)
  deriving DecidableEq, Repr, Inhabited

namespace Diagnostic

/-- The offset of the character that a diagnostic is about. -/
def offset : Diagnostic → Nat
  | stray _ place => place.offset
  | unterminated literal => literal.start.offset
  | misplaced token _ => token.start.offset

/-- Whether a diagnostic is about characters, without regard to the grammar. -/
def isLexical : Diagnostic → Bool
  | misplaced .. => false
  | _ => true

/-- The range printed in front of a diagnostic: a single point for the lexical ones. -/
def location (file : String) : Diagnostic → Location
  | stray _ place => .ofPoint file ⟨place.line, place.column + 1⟩
  | unterminated literal => .ofPoint file literal.firstPoint
  | misplaced token _ => token.location file

/-- What a complaint says of the token it is about. -/
def complaintText (token : Token) : Complaint → String
  | .expected expectation =>
    "syntax error, unexpected " ++ token.description ++ ", expecting " ++ expectation.text
  | .nestedTooDeep =>
    "syntax error, expression nested deeper than " ++ toString maxNesting ++ " levels"
  | .integerOutOfRange => "integer literal out of range"

/-- A diagnostic in words, without its place. -/
def text : Diagnostic → String
  | stray c _ => "unexpected character '" ++ String.singleton c ++ "'"
  | unterminated literal => "unterminated " ++ literal.kind.name
  | misplaced token complaint => complaintText token complaint

/-- A diagnostic as it is reported for a named file. -/
def message (file : String) (diagnostic : Diagnostic) : String :=
  (diagnostic.location file).text ++ ": " ++ diagnostic.text

end Diagnostic

end Cqasm
