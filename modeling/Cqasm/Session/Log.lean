import Cqasm.Session.Fault

/-!
# The log

What a session tells about its work, as records: how serious, what, and named values beside it. A
`Logger` is told every record. One that writes to the console decides which of them are written, and
`Logger.line?` is how: one line each, with the values of the record behind the message as one JSON
object. Errors go to one stream and all else to another. The time of day in front of each line is
not part of it.

A logger may also be the caller's own (`LoggerMethods`). Sessions call its methods without any
guard, so they rely on two things: that these methods return, and that they do not call back into
the session that they are called from.
-/

set_option autoImplicit false

namespace Cqasm

/-- How serious a record is. -/
inductive Severity where
  | debug
  | info
  | warn
  | error
  deriving DecidableEq, Repr, Inhabited

namespace Severity

/-- The severities in order. -/
def rank : Severity → Nat
  | debug => 0
  | info => 1
  | warn => 2
  | error => 3

/-- The mark of a severity. All marks are equally wide. -/
def label : Severity → String
  | debug => "DEBUG"
  | info => "INFO "
  | warn => "WARN "
  | error => "ERROR"

end Severity

/-- A value in a record. -/
inductive LogValue where
  | null
  | bool (value : Bool)
  | number (value : Int)
  | text (value : String)
  | list (values : List LogValue)
  deriving Repr, Inhabited

/-- A record of the log. The context is a list of named values; there may be none at all, which is
not the same as an empty one. -/
structure LogRecord where
  severity : Severity
  message : String
  context : Option (List (String × LogValue))
  deriving Repr, Inhabited

/-! ## JSON -/

namespace JsonText

/-- How a character is written in a JSON string: as itself, unless it is a quote, a backslash or a
control character. Five control characters have a letter of their own. -/
def escaped (c : Char) : List Char :=
  match c with
  | '"' => ['\\', '"']
  | '\\' => ['\\', '\\']
  | '\n' => ['\\', 'n']
  | '\r' => ['\\', 'r']
  | '\t' => ['\\', 't']
  | c =>
    if c.toNat = 8 then ['\\', 'b']
    else if c.toNat = 12 then ['\\', 'f']
    else if c.toNat < 0x20 then
      ['\\', 'u', '0', '0', Nat.digitChar (c.toNat / 16), Nat.digitChar (c.toNat % 16)]
    else [c]

/-- A string in JSON. -/
def string (text : String) : String :=
  "\"" ++ String.ofList (text.toList.flatMap escaped) ++ "\""

mutual

/-- A value in JSON. -/
def value : LogValue → String
  | .null => "null"
  | .bool b => if b then "true" else "false"
  | .number n => wholeText n
  | .text s => string s
  | .list values => "[" ++ ",".intercalate (listed values) ++ "]"

/-- The elements of a list in JSON. -/
def listed : List LogValue → List String
  | [] => []
  | v :: vs => value v :: listed vs

end

/-- The number that a key is, if it is one of the numbers that order the keys of an object: below
`2 ^ 32 - 1` and without zeros in front. -/
def keyNumber? (key : String) : Option Nat :=
  if key.toList.all Char.isDigit then
    match key.toNat? with
    | some n => if n < 0xffffffff && toString n = key then some n else none
    | none => none
  else none

/-- The entries of an object in which a key that comes again takes the place of its first entry. -/
def withoutRepeats (entries : List (String × LogValue)) : List (String × LogValue) :=
  entries.foldl
    (fun kept entry =>
      if kept.any (·.1 = entry.1) then
        kept.map fun old => if old.1 = entry.1 then entry else old
      else kept ++ [entry])
    []

/-- The order of the entries of an object: keys that are numbers by their value, and behind them all
others as they came. -/
def ordered (entries : List (String × LogValue)) : List (String × LogValue) :=
  let kept := withoutRepeats entries
  let (numbers, names) := kept.partition fun entry => (keyNumber? entry.1).isSome
  numbers.mergeSort (fun a b => (keyNumber? a.1).getD 0 ≤ (keyNumber? b.1).getD 0) ++ names

/-- Named values as a JSON object. -/
def object (entries : List (String × LogValue)) : String :=
  "\x7b"
    ++ ",".intercalate ((ordered entries).map fun (key, v) => string key ++ ":" ++ value v)
    ++ "\x7d"

end JsonText

/-! ## Loggers -/

/-- The two streams that lines go to. -/
inductive LogStream where
  | out
  | err
  deriving DecidableEq, Repr, Inhabited

/-- A line and the stream it goes to. -/
structure LogLine where
  stream : LogStream
  text : String
  deriving DecidableEq, Repr, Inhabited

/-- What is written to the stream for a line. -/
def LogLine.chunk (line : LogLine) : String :=
  line.text ++ "\n"

/-- The methods of a logger that the caller has made: what they write when they are told a record,
given every record that they were told before, or what they throw. As this is all that is known of
them, they do not call back. -/
structure LoggerMethods where
  answer : List LogRecord → LogRecord → Except Fault (List LogLine)
  /-- They return. -/
  returns : ∀ before record, ∃ lines, answer before record = .ok lines

/-- Who is told the records of a session: nobody, or someone with a name who writes to the console
and leaves out what is less serious than a threshold, or a logger of the caller's own. Without a
threshold nothing is serious enough. -/
inductive Logger where
  | silent
  | console (threshold : Option Severity) (name : String)
  | custom (methods : LoggerMethods)
  deriving Inhabited

namespace Logger

instance (logger : Logger) : Decidable (logger = .silent) :=
  match logger with
  | .silent => .isTrue rfl
  | .console .. | .custom _ => .isFalse nofun

/-- The name of a logger that was given none. -/
def defaultName : String := "cqasm"

/-- The threshold that a level stands for, if it is one. -/
def thresholdOf? (level : String) : Option (Option Severity) :=
  match level with
  | "debug" => some (some .debug)
  | "info" => some (some .info)
  | "warn" => some (some .warn)
  | "error" => some (some .error)
  | "silent" => some none
  | _ => none

/-- The text of a record under the name of a logger. -/
def recordText (name : String) (record : LogRecord) : String :=
  "[" ++ name ++ "] [" ++ record.severity.label ++ "] " ++ record.message
    ++ match record.context with
      | none => ""
      | some entries => "  " ++ JsonText.object entries

/-- The line that is written to the console for a record, if one is. -/
def line? (threshold : Option Severity) (name : String) (record : LogRecord) : Option LogLine :=
  match threshold with
  | none => none
  | some threshold =>
    if threshold.rank ≤ record.severity.rank then
      some
        { stream := if record.severity = .error then .err else .out
          text := recordText name record }
    else none

/-- What a logger writes when it is told a record behind others, or what it throws. -/
def tell (logger : Logger) (before : List LogRecord) (record : LogRecord) :
    Except Fault (List LogLine) :=
  match logger with
  | silent => .ok []
  | console threshold name => .ok (line? threshold name record).toList
  | custom methods => methods.answer before record

/-- A logger returns whatever it is told. -/
theorem tell_returns (logger : Logger) (before : List LogRecord) (record : LogRecord) :
    ∃ lines, logger.tell before record = .ok lines := by
  cases logger with
  | silent | console => exact ⟨_, rfl⟩
  | custom methods => exact methods.returns before record

/-- The lines that a logger writes for records in a row, when it was told others before. -/
def linesAfter (logger : Logger) (before : List LogRecord) : List LogRecord → List LogLine
  | [] => []
  | record :: records =>
    match logger.tell before record with
    | .ok lines => lines ++ logger.linesAfter (before ++ [record]) records
    | .error _ => logger.linesAfter (before ++ [record]) records

/-- The lines that a logger writes for records in a row. -/
def lines (logger : Logger) (records : List LogRecord) : List LogLine :=
  logger.linesAfter [] records

end Logger

end Cqasm
