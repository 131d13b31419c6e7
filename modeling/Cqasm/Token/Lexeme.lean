import Cqasm.Token.Kind

/-!
# Lexemes: cutting a text into pieces

`Lexeme.cut` divides a text, with nothing left out, into blanks, comments, tokens and stray
characters. Each piece is the longest one that can start where it does. What a piece is depends on
the characters from there on and on one bit of memory: right behind the keyword `version` a row of
digits is a version number, and only there.

Places play no part here. They follow from the pieces, because the pieces tile the text.

A text is a list of characters, that is, of Unicode scalar values. Half of a surrogate pair without
the other half is none, so a text that has one in it is left out of account.
-/

set_option autoImplicit false

namespace Cqasm

/-- What a piece of text is. -/
inductive Role where
  | blank
  | comment
  /-- A character that starts no token. -/
  | stray
  /-- A token, and whether it is complete: only the end of the text can cut a literal off. -/
  | token (kind : Kind) (complete : Bool)
  deriving DecidableEq, Repr, Inhabited

/-- A piece of text: its role and its characters, of which there is at least one. -/
structure Lexeme where
  role : Role
  first : Char
  more : List Char
  deriving DecidableEq, Repr, Inhabited

namespace Lexeme

/-- All characters of the piece. -/
def text (piece : Lexeme) : List Char :=
  piece.first :: piece.more

/-! ## Classes of characters -/

/-- Characters without meaning between tokens. A carriage return is one of them, so that a line may
end either way. -/
def isSpace (c : Char) : Bool :=
  c = ' ' || c = '\t' || c = '\r'

/-- Blanks, tabs and carriage returns are spaces, and nothing else is. Newlines are not: they
separate statements. -/
theorem isSpace_iff {c : Char} : isSpace c ↔ c = ' ' ∨ c = '\t' ∨ c = '\r' := by
  simp [isSpace, or_assoc]

/-- Words start with a Latin letter or an underscore. -/
def isWordStart (c : Char) : Bool :=
  c.isAlpha || c = '_'

/-- Words go on with letters, digits and underscores. -/
def isWordPart (c : Char) : Bool :=
  isWordStart c || c.isDigit

/-- Whether a text starts with a character of a class. -/
def startsWith (isMember : Char → Bool) : List Char → Bool
  | [] => false
  | c :: _ => isMember c

/-! ## The rest of a piece

Each function is given the text behind the first character of a piece and answers how the piece goes
on. -/

/-- The digits of a version number and the dots between two of them. -/
def versionTail : List Char → List Char
  | [] => []
  | c :: rest =>
    if c.isDigit || (c = '.' && startsWith Char.isDigit rest) then c :: versionTail rest else []

/-- A decimal point with the digits behind it, if at least one is there. -/
def fractionPart : List Char → List Char
  | '.' :: rest =>
    if startsWith Char.isDigit rest then '.' :: rest.takeWhile Char.isDigit else []
  | _ => []

/-- The sign of an exponent, if there is one. -/
def signPart : List Char → List Char
  | c :: _ => if c = '+' || c = '-' then [c] else []
  | [] => []

/-- An exponent mark with its sign and digits, if at least one digit is there. -/
def exponentPart : List Char → List Char
  | c :: rest =>
    let sign := signPart rest
    let digits := (rest.drop sign.length).takeWhile Char.isDigit
    if (c = 'e' || c = 'E') && !digits.isEmpty then c :: (sign ++ digits) else []
  | [] => []

/-- The rest of a number, and whether it has a fraction or an exponent. -/
def numberTail (rest : List Char) : List Char × Bool :=
  let whole := rest.takeWhile Char.isDigit
  let rest := rest.drop whole.length
  let fraction := fractionPart rest
  let exponent := exponentPart (rest.drop fraction.length)
  (whole ++ fraction ++ exponent, !(fraction.isEmpty && exponent.isEmpty))

/-- The rest of a string literal, and whether its closing quote is there. A backslash takes the
character behind it along. -/
def stringTail : List Char → List Char × Bool
  | [] => ([], false)
  | '"' :: _ => (['"'], true)
  | '\\' :: c :: rest =>
    let (text, complete) := stringTail rest
    ('\\' :: c :: text, complete)
  | c :: rest =>
    let (text, complete) := stringTail rest
    (c :: text, complete)

/-- The rest of a JSON literal behind its opening delimiter, and whether it is closed. -/
def jsonTail : List Char → List Char × Bool
  | [] => ([], false)
  | '|' :: '}' :: _ => (['|', '}'], true)
  | c :: rest =>
    let (text, complete) := jsonTail rest
    (c :: text, complete)

/-! ## Pieces -/

/-- A complete token of the given kind. -/
def ofKind (kind : Kind) (first : Char) (more : List Char) : Lexeme :=
  { role := .token kind true, first, more }

/-- Whether the text behind a lone `c` makes it the mark of a conditional instruction: it is glued
to the word that it stands in front of by a minus sign. -/
def opensCondition : List Char → Bool
  | '-' :: behind => startsWith isWordStart behind
  | _ => false

/-- The piece that starts with a letter or underscore: the mark `c-`, a keyword or a name. -/
def word (c : Char) (rest : List Char) : Lexeme :=
  if c = 'c' && opensCondition rest then ofKind .conditionPrefix c ['-']
  else
    let more := rest.takeWhile isWordPart
    ofKind ((Kind.ofKeyword? (c :: more)).getD .identifier) c more

/-- The piece that starts with a digit. -/
def number (afterVersion : Bool) (c : Char) (rest : List Char) : Lexeme :=
  if afterVersion then ofKind .versionNumber c (versionTail rest)
  else
    let (more, isFloat) := numberTail rest
    ofKind (if isFloat then .float else .integer) c more

/-- The piece that starts with a quote. -/
def string (rest : List Char) : Lexeme :=
  let (more, complete) := stringTail rest
  { role := .token .string complete, first := '"', more }

/-- The piece that starts with a brace and a bar; `rest` is what follows both. -/
def json (rest : List Char) : Lexeme :=
  let (more, complete) := jsonTail rest
  { role := .token .json complete, first := '{', more := '|' :: more }

/-- The piece that starts with an operator, or else the stray character. -/
def symbol (c : Char) (rest : List Char) : Lexeme :=
  match Kind.operators.find? (·.1.isPrefixOf (c :: rest)) with
  | some (spelling, kind) => ofKind kind c spelling.tail
  | none => { role := .stray, first := c, more := [] }

/-- The first piece of the text `c :: rest`. -/
def leading (afterVersion : Bool) (c : Char) (rest : List Char) : Lexeme :=
  if isSpace c then { role := .blank, first := c, more := [] }
  else if c = '#' then { role := .comment, first := c, more := rest.takeWhile (· ≠ '\n') }
  else if c = '\n' then ofKind .newline c []
  else if c.isDigit then number afterVersion c rest
  else if isWordStart c then word c rest
  else if c = '"' then string rest
  else if c = '{' && rest.head? = some '|' then json rest.tail
  else symbol c rest

/-- Whether the next token stands right behind the keyword `version`. What is no token does not come
between the two. -/
def isAfterVersion (afterVersion : Bool) (piece : Lexeme) : Bool :=
  match piece.role with
  | .token kind _ => kind = .version
  | _ => afterVersion

/-- The pieces of a text whose first `taken` characters already belong to the piece before. -/
def cutFrom (afterVersion : Bool) : (taken : Nat) → List Char → List Lexeme
  | _, [] => []
  | taken + 1, _ :: rest => cutFrom afterVersion taken rest
  | 0, c :: rest =>
    let piece := leading afterVersion c rest
    piece :: cutFrom (isAfterVersion afterVersion piece) piece.more.length rest

/-- The pieces of a text, from its first character to its last. -/
def cut (text : List Char) : List Lexeme :=
  cutFrom false 0 text

end Lexeme

end Cqasm
