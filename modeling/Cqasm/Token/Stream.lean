import Cqasm.Diagnostic
import Cqasm.Token.Lexeme

/-!
# Token streams

A `TokenStream` is what is still to be read of a text: its tokens and stray characters in order,
each with its place, and the token that stands at the end. Blanks and comments are gone; all they
leave is the places of the others. A stream is read one token at a time (`TokenStream.next`),
whereby the stray characters in front of the token are reported, and it never runs dry: the end
token comes again and again.
-/

set_option autoImplicit false

namespace Cqasm

namespace Diagnostic

/-- What is wrong with a token by itself: it may be a literal cut off by the end of the text. -/
def ofToken (token : Token) : List Diagnostic :=
  if token.complete then [] else [.unterminated token]

end Diagnostic

/-- A piece of text that someone reading tokens notices. -/
inductive Item where
  | token (token : Token)
  | stray (c : Char) (place : Position)
  deriving DecidableEq, Repr, Inhabited

namespace Item

/-- The offset of the first character. -/
def offset : Item → Nat
  | token t => t.start.offset
  | stray _ place => place.offset

/-- The token, unless it is a stray character. -/
def token? : Item → Option Token
  | token t => some t
  | stray .. => none

/-- What is reported when the item is read. -/
def diagnostics : Item → List Diagnostic
  | token t => Diagnostic.ofToken t
  | stray c place => [.stray c place]

/-- The item that a piece of text at a place makes, if it is one to notice. -/
def ofLexeme? (place : Position) (piece : Lexeme) : Option Item :=
  match piece.role with
  | .blank | .comment => none
  | .stray => some (.stray piece.first place)
  | .token kind complete => some (.token { kind, text := piece.text, start := place, complete })

/-- The items of pieces that stand side by side from a place on. -/
def ofLexemes (place : Position) : List Lexeme → List Item
  | [] => []
  | piece :: pieces =>
    (ofLexeme? place piece).toList ++ ofLexemes (place.after piece.text) pieces

end Item

/-- What is still to be read of a text. -/
structure TokenStream where
  items : List Item
  /-- The token that stands at the end of the text. -/
  last : Token
  deriving DecidableEq, Repr, Inhabited

namespace TokenStream

/-- The stream of a whole text. -/
def ofText (text : List Char) : TokenStream :=
  { items := Item.ofLexemes .start (Lexeme.cut text)
    last := .atEnd (Position.start.after text) }

/-- The tokens still to come, the end apart. -/
def tokens (stream : TokenStream) : List Token :=
  stream.items.filterMap Item.token?

/-- What there still is to report about characters. -/
def diagnostics (stream : TokenStream) : List Diagnostic :=
  stream.items.flatMap Item.diagnostics

/-- One step of reading: what was reported on the way, the token read, and what is left. -/
structure Step where
  report : List Diagnostic
  token : Token
  rest : TokenStream

/-- Reads the next token, past the stray characters in front of it. -/
def next (stream : TokenStream) : Step :=
  step stream.items
where
  step : List Item → Step
    | [] => { report := [], token := stream.last, rest := { stream with items := [] } }
    | .token t :: items =>
      { report := Diagnostic.ofToken t, token := t, rest := { stream with items } }
    | .stray c place :: items =>
      let later := step items
      { later with report := .stray c place :: later.report }

/-- Every token up to and including the end, and everything reported on the way. -/
def readAll (stream : TokenStream) : List Token × List Diagnostic :=
  (stream.tokens ++ [stream.last], stream.diagnostics)

/-- The stream from the item at an offset on. -/
def startingAt (offset : Nat) (stream : TokenStream) : TokenStream :=
  { stream with items := stream.items.dropWhile (·.offset < offset) }

/-- The stream behind the item at an offset. -/
def startingBehind (offset : Nat) (stream : TokenStream) : TokenStream :=
  { stream with items := stream.items.dropWhile (·.offset ≤ offset) }

end TokenStream

end Cqasm
