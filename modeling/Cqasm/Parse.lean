import Cqasm.Session.Basic

/-!
# Parsing texts and files

The entry points of the library. Each runs one session from beginning to end and answers with its
`Result`: the tree, if reading got far enough to build one, and every message in order. A text was
read successfully if there is no message, and only then does `Result.tree` hand out the tree.

Whether an entry point returns at all is told by `parsing`: it throws what its session throws. How
deep the tree can be walked through, and with it the stack that is needed, is left out of account.
-/

set_option autoImplicit false

namespace Cqasm

/-- What came of parsing an input. A tree may be there beside messages; it has placeholders then. -/
structure Result where
  root : Option Root
  errors : List String
  deriving Inhabited

/-- Why no tree is handed out. -/
structure ParseError where
  message : String
  /-- Every message of the result. -/
  errors : List String
  deriving DecidableEq, Repr, Inhabited

namespace Result

/-- Whether there is nothing to complain about. -/
def succeeded (result : Result) : Bool :=
  result.errors.isEmpty

/-- The first of some messages, and how many more there are. -/
def summary (first : String) (more : List String) : String :=
  if more.isEmpty then first
  else first ++ " (and " ++ toString more.length ++ " more)"

/-- The tree of a successful result. -/
def tree (result : Result) : Except ParseError Root :=
  match result.errors, result.root with
  | first :: more, _ => .error { message := summary first more, errors := first :: more }
  | [], some root => .ok root
  | [], none => .error { message := "parse produced no AST", errors := [] }

end Result

/-- What a session has come to. -/
def Session.result (s : Session) : Result :=
  { root := s.root, errors := s.errors.messages.toList }

/-- The result that a session hands out before it is over, as it looks once the session has come to
`later`: the tree is the one of the moment, while the messages go on growing with the session. -/
def Session.sharedResult (s later : Session) : Result :=
  { root := s.root, errors := later.result.errors }

/-- The name of an input that was given none. -/
def unknownFile : String := "<unknown>"

/-- The session that parses an input by the grammar, from beginning to end. -/
def parseSession (settings : Settings) (input : Input) : Session :=
  (Session.start input settings .grammar).complete

/-- What comes of parsing an input: the result that is returned, or what is thrown. -/
def parsing (settings : Settings) (input : Input) : Except Fault Result :=
  let (outcome, s) := (Session.start input settings .grammar).completing
  outcome.map fun _ => s.result

/-- Parses an input. -/
def parse (settings : Settings) (input : Input) : Result :=
  (parseSession settings input).result

/-- Parses a text; the name of a file is for messages and locations only. -/
def parseText (settings : Settings) (file : String) (text : String) : Result :=
  parse settings (.string text file)

end Cqasm
