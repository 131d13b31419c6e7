import Cqasm.Proofs.Machine.Action
import Cqasm.Token.Stream

/-!
# The scanner step by step

`Lexeme.cut` says which pieces a text is made of. The scanner gets at them one character at a time:
it looks a few characters ahead in a stream that it does not own, consumes what it has recognised
and keeps count of lines and columns itself. Nothing bounds its loops but the stream, which yields
no character beyond its last one and takes it amiss when one is consumed there.

What is wrong with the characters is handed to whatever collects diagnostics, which may refuse.
-/

set_option autoImplicit false

namespace Cqasm.Machine

/-- A stream of characters that are consumed one by one. -/
structure CharSource (S : Type) where
  /-- The character so many places ahead, counted from 1, if there is one. -/
  peek : S → Nat → Option Char
  /-- The state behind the next character. At the end this is an error. -/
  consume : S → Option S
  /-- How many characters have been consumed. -/
  index : S → Nat

/-- Exactly this text is left to consume: none of its characters is missing, and beyond the last
one there is none to see and none to consume. -/
def CharSource.Holds {S : Type} (source : CharSource S) : S → List Char → Prop
  | s, [] => (∀ k, source.peek s (k + 1) = none) ∧ source.consume s = none
  | s, c :: rest =>
    (∀ k, source.peek s (k + 1) = (c :: rest)[k]?) ∧
      ∃ t, source.consume s = some t ∧ source.index t = source.index s + 1 ∧ source.Holds t rest

/-- The stream over a list of characters, with the number of those in front of it. -/
def CharSource.ofChars : CharSource (List Char × Nat) where
  peek := fun (rest, _) k => rest[k - 1]?
  consume
    | ([], _) => none
    | (_ :: rest, n) => some (rest, n + 1)
  index := fun (_, n) => n

theorem CharSource.holds_ofChars (text : List Char) (n : Nat) : ofChars.Holds (text, n) text := by
  induction text generalizing n with
  | nil => exact ⟨fun _ => rfl, rfl⟩
  | cons c rest ih => exact ⟨fun _ => rfl, _, rfl, rfl, ih (n + 1)⟩

/-- What a scanner and a grammar are given to work with. -/
structure Host (S : Type) where
  source : CharSource S
  file : String
  /-- Whether a diagnostic is taken when others have been taken before. Handing one over that is not
  taken throws. -/
  takes : List Diagnostic → Diagnostic → Bool
  /-- Whether so many diagnostics are too many to go on. -/
  isExhaustedBy : Nat → Bool

/-- Surroundings in which texts are lists of characters, every diagnostic is taken and none is one
too many. -/
def Host.ofChars (file : String) : Host (List Char × Nat) where
  source := .ofChars
  file := file
  takes := fun _ _ => true
  isExhaustedBy := fun _ => false

/-- The state of a scanner, with the diagnostics taken so far. -/
structure Scanner (S : Type) where
  input : S
  disposed : Bool
  /-- The line and the column of the next character. -/
  line : Nat
  column : Nat
  /-- The place of the first character of the token at work. -/
  tokenStart : Position
  /-- Whether the token before was the keyword `version`. -/
  expectVersionNumber : Bool
  reports : List Diagnostic

namespace Scanner

variable {S : Type}

/-- A scanner at the beginning of its input. -/
def start (input : S) : Scanner S :=
  { input, disposed := false, line := 1, column := 0, tokenStart := .start
    expectVersionNumber := false, reports := [] }

variable (host : Host S)

/-- The place of the next character. -/
def here (s : Scanner S) : Position :=
  ⟨host.source.index s.input, s.line, s.column⟩

/-! ## Single steps -/

/-- Looks so many characters ahead. -/
def ahead (k : Nat) : Action (Scanner S) (Option Char) := do
  return host.source.peek (← get).input k

/-- Whether there is a character of a class so many places ahead. -/
def isAhead (isMember : Char → Bool) (k : Nat) : Action (Scanner S) Bool := do
  return (← ahead host k).any isMember

/-- Whether a spelling is what comes next. -/
def lookingAt (spelling : List Char) : Action (Scanner S) Bool :=
  compare 1 spelling
where
  compare (k : Nat) : List Char → Action (Scanner S) Bool
    | [] => return true
    | c :: more => do
      if (← ahead host k) = some c then compare (k + 1) more else return false

/-- Consumes a character and yields it. -/
def advance : Action (Scanner S) (List Char) := do
  let s ← get
  match host.source.consume s.input with
  | none => throw .pastEnd
  | some input =>
    let c? := host.source.peek s.input 1
    if c? = some '\n' then set { s with input, line := s.line + 1, column := 0 }
    else set { s with input, column := s.column + 1 }
    return c?.toList

/-- Consumes so many characters. -/
def advances : Nat → Action (Scanner S) Unit
  | 0 => return ()
  | n + 1 => do
    let _ ← advance host
    advances n

/-- Hands a diagnostic over. -/
def report (diagnostic : Diagnostic) : Action (Scanner S) Unit := do
  let s ← get
  if host.takes s.reports diagnostic then
    set { s with reports := s.reports ++ [diagnostic] }
  else throw .refused

/-- Makes the token that ends in front of the next character. -/
def emit (kind : Kind) (text : List Char) (complete : Bool) : Action (Scanner S) Token := do
  modify ({ · with expectVersionNumber := false })
  return { kind, text, start := (← get).tokenStart, complete }

/-! ## Pieces of text

A loop is given by what it does in one turn, from what it had before. -/

def takeTurn (isMember : Char → Bool) (text : List Char) :
    Action (Scanner S) (List Char ⊕ List Char) := do
  if ← isAhead host isMember 1 then return .inl (text ++ (← advance host))
  else return .inr text

/-- Consumes characters of a class for as long as there are some. -/
def takeWhile (isMember : Char → Bool) : Action (Scanner S) (List Char) :=
  Action.loop (takeTurn host isMember) []

def blankTurn : Unit → Action (Scanner S) (Unit ⊕ Unit)
  | () => do
    let c? ← ahead host 1
    if c?.any Lexeme.isSpace then
      let _ ← advance host
      return .inl ()
    else if c? = some '#' then
      let _ ← takeWhile host (· ≠ '\n')
      return .inl ()
    else return .inr ()

/-- Skips blanks and comments. -/
def skipBlanks : Action (Scanner S) Unit :=
  Action.loop (blankTurn host) ()

def versionTurn (text : List Char) : Action (Scanner S) (List Char ⊕ List Char) := do
  if ← isAhead host Char.isDigit 1 then
    let text := text ++ (← advance host)
    if (← ahead host 1) = some '.' && (← isAhead host Char.isDigit 2) then
      return .inl (text ++ (← advance host))
    else return .inl text
  else return .inr text

/-- Consumes a version number. -/
def readVersion : Action (Scanner S) (List Char) :=
  Action.loop (versionTurn host) []

/-- Scans a version number. -/
def scanVersion : Action (Scanner S) Token := do
  emit .versionNumber (← readVersion host) true

/-- Consumes a fraction, if one comes next. -/
def readFraction : Action (Scanner S) (List Char) := do
  if (← ahead host 1) = some '.' && (← isAhead host Char.isDigit 2) then
    let point ← advance host
    return point ++ (← takeWhile host Char.isDigit)
  else return []

/-- Consumes an exponent, if one comes next. -/
def readExponent : Action (Scanner S) (List Char) := do
  let mark? ← ahead host 1
  if mark? = some 'e' || mark? = some 'E' then
    let sign? ← ahead host 2
    let hasSign := sign? = some '+' || sign? = some '-'
    if ← isAhead host Char.isDigit (if hasSign then 3 else 2) then
      let mark ← advance host
      let sign ← if hasSign then advance host else pure []
      return mark ++ sign ++ (← takeWhile host Char.isDigit)
    else return []
  else return []

/-- Consumes a number, and tells whether it has a fraction or an exponent. -/
def readNumber : Action (Scanner S) (List Char × Bool) := do
  let whole ← takeWhile host Char.isDigit
  let fraction ← readFraction host
  let exponent ← readExponent host
  return (whole ++ fraction ++ exponent, !(fraction.isEmpty && exponent.isEmpty))

/-- Scans a number. -/
def scanNumber : Action (Scanner S) Token := do
  let (text, isFloat) ← readNumber host
  emit (if isFloat then .float else .integer) text true

/-- Consumes a word, and tells whether it is the mark `c-`. -/
def readWord : Action (Scanner S) (List Char × Bool) := do
  let text ← takeWhile host Lexeme.isWordPart
  if text = ['c'] && (← ahead host 1) = some '-' && (← isAhead host Lexeme.isWordStart 2) then
    return (text ++ (← advance host), true)
  else return (text, false)

/-- Scans a word: the mark `c-`, a keyword or a name. -/
def scanWord : Action (Scanner S) Token := do
  let (text, isMark) ← readWord host
  if isMark then emit .conditionPrefix text true
  else
    let keyword? := Kind.ofKeyword? text
    let token ← emit (keyword?.getD .identifier) text true
    modify ({ · with expectVersionNumber := keyword? = some .version })
    return token

/-- Ends a literal. One that the end of the text cut off is reported. -/
def emitLiteral (kind : Kind) (text : List Char) (complete : Bool) :
    Action (Scanner S) Token := do
  if !complete then
    report host (.unterminated { kind, text, start := (← get).tokenStart, complete })
  emit kind text complete

def stringTurn (text : List Char) : Action (Scanner S) (List Char ⊕ (List Char × Bool)) := do
  match ← ahead host 1 with
  | none => return .inr (text, false)
  | some c =>
    let text := text ++ (← advance host)
    if c = '"' then return .inr (text, true)
    else if c = '\\' && (← ahead host 1).isSome then return .inl (text ++ (← advance host))
    else return .inl text

/-- Consumes a string literal, and tells whether it is closed. -/
def readString : Action (Scanner S) (List Char × Bool) := do
  let quote ← advance host
  Action.loop (stringTurn host) quote

/-- Scans a string literal. -/
def scanString : Action (Scanner S) Token := do
  let (text, complete) ← readString host
  emitLiteral host .string text complete

def jsonTurn (text : List Char) : Action (Scanner S) (List Char ⊕ (List Char × Bool)) := do
  if (← ahead host 1).isNone then return .inr (text, false)
  else if ← lookingAt host ['|', '}'] then
    let text := text ++ (← advance host)
    return .inr (text ++ (← advance host), true)
  else return .inl (text ++ (← advance host))

/-- Consumes a JSON literal, and tells whether it is closed. -/
def readJson : Action (Scanner S) (List Char × Bool) := do
  let brace ← advance host
  let bar ← advance host
  Action.loop (jsonTurn host) (brace ++ bar)

/-- Scans a JSON literal. -/
def scanJson : Action (Scanner S) Token := do
  let (text, complete) ← readJson host
  emitLiteral host .json text complete

/-- Scans a token whose spelling comes next. -/
def scanSpelling (spelling : List Char) (kind : Kind) : Action (Scanner S) Token := do
  advances host spelling.length
  emit kind spelling true

/-- Scans the first operator of a list that comes next. If none does, the character is reported and
skipped. -/
def scanSymbol (c : Char) : List (List Char × Kind) → Action (Scanner S) (Option Token)
  | [] => do
    report host (.stray c ((← get).here host))
    let _ ← advance host
    return none
  | (spelling, kind) :: more => do
    if ← lookingAt host spelling then return some (← scanSpelling host spelling kind)
    else scanSymbol c more

/-! ## Tokens -/

/-- Scans the token that the next character begins, or reports and skips that character. Behind the
keyword `version` digits are a version number. -/
def scanFrom (afterVersion : Bool) (c : Char) : Action (Scanner S) (Option Token) := do
  if c = '\n' then return some (← scanSpelling host ['\n'] .newline)
  else if afterVersion && c.isDigit then return some (← scanVersion host)
  else if c.isDigit then return some (← scanNumber host)
  else if Lexeme.isWordStart c then return some (← scanWord host)
  else if c = '"' then return some (← scanString host)
  else if c = '{' && (← ahead host 2) = some '|' then return some (← scanJson host)
  else scanSymbol host c Kind.operators

/-- Scans one token, or reports and skips a stray character. -/
def scanToken : Action (Scanner S) (Option Token) := do
  skipBlanks host
  modify fun s => { s with tokenStart := s.here host }
  match ← ahead host 1 with
  | none => return some (← emit .eof [] true)
  | some c => scanFrom host (← get).expectVersionNumber c

def tokenTurn : Unit → Action (Scanner S) (Unit ⊕ Token)
  | () => do
    match ← scanToken host with
    | some token => return .inr token
    | none => return .inl ()

/-- The next token of the input. -/
def nextToken : Action (Scanner S) Token := do
  if (← get).disposed then throw .disposed
  else Action.loop (tokenTurn host) ()

end Scanner

end Cqasm.Machine
