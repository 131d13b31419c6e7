import Cqasm.Source.Location
import Cqasm.Source.Position
import Cqasm.Token.Kind

/-!
# Tokens

A token is a kind, the characters it was read from and the place of the first of them. Where it ends
is not stored: it is where walking over its text leads (`Token.stop`), and that is also how its
location is measured, however many lines a literal runs over.
-/

set_option autoImplicit false

namespace Cqasm

/-- A token as it stands in a text. -/
structure Token where
  kind : Kind
  /-- The characters it was read from, delimiters included; empty at the end of the text. -/
  text : List Char
  start : Position
  /-- False for a string or JSON literal that the end of the text cut off. -/
  complete : Bool
  deriving DecidableEq, Repr, Inhabited

namespace Token

/-- The token that stands at the end of a text. -/
def atEnd (here : Position) : Token :=
  { kind := .eof, text := [], start := here, complete := true }

/-- The place of the first character behind the token. -/
def stop (token : Token) : Position :=
  token.start.after token.text

/-- The place of the first character, columns counted from 1. -/
def firstPoint (token : Token) : Point :=
  ⟨token.start.line, token.start.column + 1⟩

/-- The place of the last character, columns counted from 1: as many characters of its line have
been passed when the token is over. -/
def lastPoint (token : Token) : Point :=
  ⟨token.stop.line, token.stop.column⟩

/-- The range of a token. The end of the text and a newline are single points. -/
def location (file : String) (token : Token) : Location :=
  match token.kind with
  | .eof | .newline => .ofPoint file token.firstPoint
  | _ => .ofBounds file token.firstPoint token.lastPoint

/-- The text by which a token is shown: its characters, or a mark for the end of the text. -/
def shownText (token : Token) : String :=
  match token.kind with
  | .eof => "<EOF>"
  | _ => String.ofList token.text

/-- How a diagnostic speaks of a token: by its kind, and by its text where the kind has many. -/
def description (token : Token) : String :=
  if token.kind.isQuoted then
    token.kind.name ++ " '" ++ String.ofList token.text ++ "'"
  else token.kind.name

end Token

end Cqasm
