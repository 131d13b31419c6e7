/-!
# Kinds of token

The alphabet of cQASM: the end of the text, two separators, six classes of literal and name, the
keywords, and the operators and punctuation. Each kind has a number under which it is known outside
(`Kind.code`) and a name under which diagnostics speak of it (`Kind.name`). Keywords and operators
are named by their own spelling in quotes, so the two tables of spellings are the only place where
a spelling is written down.
-/

set_option autoImplicit false

namespace Cqasm

/-- What a token is, apart from its text. -/
inductive Kind where
  | eof
  | newline
  | semicolon
  | integer
  | float
  | string
  | json
  | identifier
  | version
  | versionNumber
  | qubits
  | map
  | var
  | errorModel
  | conditionPrefix
  | comma
  | colon
  | dot
  | leftParen
  | rightParen
  | leftBracket
  | rightBracket
  | leftBrace
  | rightBrace
  | pipe
  | atSign
  | assign
  | power
  | star
  | slash
  | percent
  | plus
  | minus
  | less
  | lessEqual
  | greater
  | greaterEqual
  | equal
  | notEqual
  | andAnd
  | orOr
  | bang
  | tilde
  deriving DecidableEq, Repr, Inhabited

namespace Kind

/-- Every kind in the order of its number, the end of the text apart. -/
def numbered : List Kind :=
  [newline, semicolon, integer, float, string, json, identifier, version, versionNumber, qubits,
    map, var, errorModel, conditionPrefix, comma, colon, dot, leftParen, rightParen, leftBracket,
    rightBracket, leftBrace, rightBrace, pipe, atSign, assign, power, star, slash, percent, plus,
    minus, less, lessEqual, greater, greaterEqual, equal, notEqual, andAnd, orOr, bang, tilde]

/-- The number of a kind: −1 for the end of the text, the others count from 1. -/
def code : Kind → Int
  | eof => -1
  | kind => numbered.idxOf kind + 1

/-- The kind with a given number, if there is one. -/
def ofCode? (number : Int) : Option Kind :=
  (eof :: numbered).find? (·.code = number)

/-- The reserved words. -/
def keywords : List (List Char × Kind) :=
  [("version".toList, version), ("qubits".toList, qubits), ("map".toList, map),
    ("var".toList, var), ("error_model".toList, errorModel)]

/-- Operators and punctuation. Spellings of two characters come first, so that the first entry that
fits a text is the longest one that does. -/
def operators : List (List Char × Kind) :=
  [(['*', '*'], power), (['<', '='], lessEqual), (['>', '='], greaterEqual),
    (['=', '='], equal), (['!', '='], notEqual), (['&', '&'], andAnd), (['|', '|'], orOr),
    ([';'], semicolon), ([','], comma), ([':'], colon), (['.'], dot),
    (['('], leftParen), ([')'], rightParen), (['['], leftBracket), ([']'], rightBracket),
    (['{'], leftBrace), (['}'], rightBrace), (['|'], pipe), (['@'], atSign),
    (['='], assign), (['*'], star), (['/'], slash), (['%'], percent), (['+'], plus),
    (['-'], minus), (['<'], less), (['>'], greater), (['!'], bang), (['~'], tilde)]

/-- The one spelling of a keyword or operator. -/
def spelling? (kind : Kind) : Option (List Char) :=
  ((keywords ++ operators).find? (·.2 = kind)).map (·.1)

/-- How diagnostics speak of a kind. -/
def name (kind : Kind) : String :=
  match kind with
  | eof => "end of file"
  | newline => "newline"
  | integer => "integer literal"
  | float => "float literal"
  | string => "string literal"
  | json => "JSON literal"
  | identifier => "identifier"
  | versionNumber => "version number"
  | conditionPrefix => "'c-'"
  | _ => "'" ++ String.ofList ((spelling? kind).getD []) ++ "'"

/-- How diagnostics speak of a kind known by its number only. -/
def nameOfCode (number : Int) : String :=
  match ofCode? number with
  | some kind => kind.name
  | none => "token " ++ toString number

/-- The keyword that a word is, if it is reserved. -/
def ofKeyword? (word : List Char) : Option Kind :=
  (keywords.find? (·.1 = word)).map (·.2)

/-- Newlines and semicolons separate statements. -/
def isSeparator : Kind → Bool
  | newline | semicolon => true
  | _ => false

/-- A statement is over at a separator and at the end of the text. -/
def endsStatement : Kind → Bool
  | eof => true
  | kind => kind.isSeparator

/-- Kinds of many spellings, which diagnostics quote beside their name. -/
def isQuoted : Kind → Bool
  | integer | float | string | json | identifier | versionNumber => true
  | _ => false

end Kind

end Cqasm
