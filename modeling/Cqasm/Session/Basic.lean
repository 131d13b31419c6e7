import Cqasm.Reader.Program
import Cqasm.Session.ErrorLog
import Cqasm.Session.FileSystem
import Cqasm.Session.Log
import Cqasm.Tree.Traversal

/-!
# Sessions

A session reads one input. It gets hold of the text and makes a scanner for it
(`Session.acquire`), lets a driver read from the scanner (`Session.readBy`), and lets go of
everything it holds (`Session.release`). The operations may come in any order and any number of
times: whatever goes wrong is caught and becomes a message in the session's error log.

On the way an operation calls what it knows nothing about: a file system, a driver, a logger, and
what was thrown by them, which is asked for its reason. So each operation comes twice. One says
whether it returns or throws (`Session.acquiring`, `Session.readingBy`, `Session.reporting`,
`Session.releasing`); the other one, with the name of the operation, is the session that it leaves
behind in any case.

A `Driver` is anything that can read: it carries out commands, each of which it may choose by what
it has seen before, and in the end it returns or throws. It can report messages, read single tokens,
dispose of the scanner, set a tree of its own, or leave all of that to the grammar. The session's
own driver follows its `Script` (`Session.read`), which for the usual one is the grammar alone.
-/

set_option autoImplicit false

namespace Cqasm

/-! ## Inputs and settings -/

/-- Where the text of a session comes from; `file` is the name used in messages and locations. -/
inductive Input where
  | path (file : String)
  | descriptor (descriptor : Int) (file : String)
  | string (text : String) (file : String)
  deriving DecidableEq, Repr, Inhabited

namespace Input

/-- The name an input goes by. -/
def file : Input → String
  | path file | descriptor _ file | string _ file => file

/-- What kind of input it is. -/
def mode : Input → String
  | path _ => "path"
  | descriptor .. => "descriptor"
  | string .. => "string"

end Input

/-- How a session works. -/
structure Settings where
  logger : Logger
  /-- How many messages the error log keeps. -/
  limit : Nat
  files : FileSystem
  deriving Inhabited

namespace Settings

/-- How many messages are kept unless something else is asked for. -/
def defaultLimit : Nat := 100

/-- The limit that is asked for by a number: any whole number above zero, and otherwise the usual
one. -/
def limitOf (asked : Option Binary64) : Nat :=
  match asked.bind Binary64.toNat? with
  | some n => if 0 < n then n else defaultLimit
  | none => defaultLimit

end Settings

/-! ## Scripts -/

/-- One thing that a driver does with a scanner. -/
inductive Command where
  /-- Report a message. -/
  | report (message : String)
  | throw (fault : Fault)
  /-- Read the next token and note it. -/
  | next
  /-- Dispose of the scanner. -/
  | dispose
  /-- Note whether the error log has given up. -/
  | aborted
  /-- Make this the tree that was read. -/
  | root (root : Root)
  /-- Take away the tree that was read. -/
  | noRoot
  /-- Read a program by the grammar. -/
  | grammar
  /-- Read a program by the grammar, and throw when it reports more than so many diagnostics. -/
  | grammarLimited (limit : Nat)
  /-- Keep the scanner, so that others can read from it. -/
  | keep
  deriving Inhabited

/-- Something that a driver notes down. -/
inductive Observation where
  | token (token : Token)
  | aborted (value : Bool)
  deriving DecidableEq, Repr, Inhabited

/-- What a session does with its scanner. -/
inductive Script where
  /-- Read a program by the grammar. -/
  | grammar
  /-- One command after another, until one throws. -/
  | commands (commands : List Command)
  deriving Inhabited

/-- A scanner: what it has still to read, until it is disposed of. -/
structure Scanner where
  stream : TokenStream
  disposed : Bool
  deriving DecidableEq, Repr, Inhabited

/-! ## The state of a session -/

/-- A session and everything it has done. -/
structure Session where
  input : Input
  settings : Settings
  script : Script
  errors : ErrorLog
  /-- The tree that was read, if there is one. -/
  root : Option Root
  /-- Every scanner made so far. -/
  scanners : Array Scanner
  /-- The scanner in use, by its place among all of them. -/
  active : Option Nat
  /-- The descriptor that the session opened itself and has not closed. -/
  owned : Option Int
  /-- Every request made to the file system. -/
  calls : Array FileCall
  /-- Every record written to the log. -/
  records : Array LogRecord
  /-- What drivers have noted down. -/
  observations : Array Observation
  /-- The scanner that a driver kept last. -/
  handed : Option Nat
  deriving Inhabited

namespace Session

/-- A session that has done nothing yet. -/
def start (input : Input) (settings : Settings) (script : Script) : Session where
  input
  settings
  script
  errors := .empty settings.limit
  root := none
  scanners := #[]
  active := none
  owned := none
  calls := #[]
  records := #[]
  observations := #[]
  handed := none

/-- The name of the input. -/
def file (s : Session) : String :=
  s.input.file

/-- Whether there is a scanner in use. -/
def hasScanner (s : Session) : Bool :=
  s.active.isSome

/-! ## Attempts -/

/-- What comes of something that is done with a session: what it returns or throws, and the session
that it leaves behind. What has been done before something is thrown stays done. -/
abbrev Attempt (α : Type) := Except Fault α × Session

namespace Attempt

variable {α β : Type}

/-- Goes on, unless something was thrown. -/
def andThen (attempt : Attempt α) (next : α → Session → Attempt β) : Attempt β :=
  match attempt with
  | (.ok value, s) => next value s
  | (.error thrown, s) => (.error thrown, s)

/-- Returns something else instead. -/
def mapResult (attempt : Attempt α) (f : α → β) : Attempt β :=
  (attempt.1.map f, attempt.2)

end Attempt

/-! ## Reporting -/

/-- A record of a session. Its context starts with the name of the input. -/
def recordOf (s : Session) (severity : Severity) (message : String)
    (context : List (String × LogValue)) : LogRecord :=
  { severity, message, context := some (("filename", .text s.file) :: context) }

/-- Tells the logger something. -/
def telling (s : Session) (severity : Severity) (message : String)
    (context : List (String × LogValue)) : Attempt Unit :=
  let record := s.recordOf severity message context
  ((s.settings.logger.tell s.records.toList record).map fun _ => (),
    { s with records := s.records.push record })

/-- The session that has told the logger something. -/
def record (s : Session) (severity : Severity) (message : String)
    (context : List (String × LogValue)) : Session :=
  (s.telling severity message context).2

/-- Loggers return. -/
theorem telling_eq (s : Session) (severity : Severity) (message : String)
    (context : List (String × LogValue)) :
    s.telling severity message context = (.ok (), s.record severity message context) := by
  obtain ⟨lines, hlines⟩ :=
    s.settings.logger.tell_returns s.records.toList (s.recordOf severity message context)
  rw [record, telling, hlines]
  rfl

/-- Reports a message. The first one that is turned away is worth a warning. -/
def reporting (s : Session) (message : String) : Attempt Unit :=
  let reported := { s with errors := s.errors.add message }
  if reported.errors.aborted && !s.errors.aborted then
    reported.telling .warn "Error limit reached" [("maxErrors", .number s.errors.limit)]
  else (.ok (), reported)

/-- The session to which a message has been reported. -/
def report (s : Session) (message : String) : Session :=
  (s.reporting message).2

/-- Reporting a message returns, as the logger does. That is why drivers and scanners, which report
in the middle of their work, need not reckon with anything else. -/
theorem reporting_eq (s : Session) (message : String) :
    s.reporting message = (.ok (), s.report message) := by
  rw [report, reporting]
  dsimp only
  split
  · rw [telling_eq]
  · rfl

/-- Reports messages in a row. -/
def reportAll (s : Session) (messages : List String) : Session :=
  messages.foldl report s

/-- Reports diagnostics in a row. -/
def reportDiagnostics (s : Session) (diagnostics : List Diagnostic) : Session :=
  s.reportAll (diagnostics.map (·.message s.file))

/-- Reports that something failed, and why. A fault without a reason throws when it is asked for
one; then there is nothing to report. -/
def reportingFailure (s : Session) (failure : String) (fault : Fault) : Attempt Unit :=
  match fault.describe with
  | .ok reason => s.reporting (failure ++ ": " ++ reason)
  | .error thrown => (.error thrown, s)

/-! ## Getting hold of the text -/

/-- Reads what a descriptor yields. -/
def fetchDescriptor (s : Session) (descriptor : Int) : Attempt (Option Contents) :=
  let asked := { s with calls := s.calls.push (.read descriptor) }
  match s.settings.files.readAll s.calls.toList descriptor with
  | .ok contents => (.ok (some contents), asked)
  | .error fault =>
    (asked.reportingFailure ("Failed to read input file " ++ s.file) fault).mapResult fun _ => none

/-- Opens a path and reads what is there. From then on the descriptor is the session's to close. -/
def fetchPath (s : Session) (path : String) : Attempt (Option Contents) :=
  let asked := { s with calls := s.calls.push (.open path) }
  match s.settings.files.openPath s.calls.toList path with
  | .ok descriptor => fetchDescriptor { asked with owned := some descriptor } descriptor
  | .error fault =>
    (asked.reportingFailure ("Failed to open input file " ++ s.file) fault).mapResult fun _ => none

/-- Gets hold of the input. -/
def fetch (s : Session) : Attempt (Option Contents) :=
  match s.input with
  | .string text _ => (.ok (some (.text text)), s)
  | .descriptor descriptor _ => s.fetchDescriptor descriptor
  | .path file => s.fetchPath file

/-- Makes a scanner for a text and puts it to use. -/
def addScanner (s : Session) (text : String) : Session :=
  { s with
    scanners := s.scanners.push { stream := .ofText text.toList, disposed := false }
    active := some s.scanners.size }

/-- Makes a scanner for what the input has yielded, if it has yielded anything. -/
def scannerFor (s : Session) : Option Contents → Attempt Bool
  | none => (.ok false, s)
  | some (.text text) => (.ok true, s.addScanner text)
  | some (.unreadable fault) =>
    (s.reportingFailure ("Failed to construct scanner for " ++ s.file) fault).mapResult fun _ =>
      false

/-- Gets hold of the input and makes a scanner for it; tells whether that worked. If it did not, one
message has been reported. -/
def acquiring (s : Session) : Attempt Bool :=
  s.fetch.andThen fun contents s => s.scannerFor contents

/-- The session that has tried to get hold of its input, and whether it has made a scanner. -/
def acquire (s : Session) : Bool × Session :=
  let attempt := s.acquiring
  (match attempt.1 with
    | .ok success => success
    | .error _ => false,
    attempt.2)

/-! ## Reading -/

/-- The stream of a scanner, unless it has been disposed of. -/
def stream? (s : Session) (scanner : Nat) : Option TokenStream :=
  match s.scanners[scanner]? with
  | some { stream, disposed := false } => some stream
  | _ => none

/-- Replaces what a scanner has still to read. -/
def setStream (s : Session) (scanner : Nat) (stream : TokenStream) : Session :=
  { s with scanners := s.scanners.modify scanner fun old => { old with stream } }

/-- Disposes of a scanner. -/
def disposeOf (s : Session) (scanner : Nat) : Session :=
  { s with scanners := s.scanners.modify scanner fun old => { old with disposed := true } }

/-- Reads the next token from a scanner. What comes up on the way is reported. -/
def readToken (s : Session) (scanner : Nat) : Except Fault Token × Session :=
  match s.stream? scanner with
  | none => (.error .scannerDisposed, s)
  | some stream =>
    let step := stream.next
    (.ok step.token, (s.setStream scanner step.rest).reportDiagnostics step.report)

/-- Where a stream goes on when reporting a diagnostic of it throws: a stray character is still to
be passed then, while a token has been. -/
def resumeAt (stream : TokenStream) (diagnostic : Diagnostic) : TokenStream :=
  match diagnostic with
  | .stray _ place => stream.startingAt place.offset
  | .unterminated token | .misplaced token _ => stream.startingBehind token.start.offset

/-- Reads a program by the grammar. The whole of it is reported, unless that is more than `limit`
diagnostics: then reading ends in the middle, and no tree is there. -/
def readProgram (s : Session) (scanner : Nat) (limit : Option Nat) : Option Fault × Session :=
  match s.stream? scanner with
  | none => (some .scannerDisposed, s)
  | some stream =>
    let reading := Reading.ofStream s.errors.isExhaustedBy s.file stream
    let report := reading.report stream
    match limit.bind (report[·]?), limit with
    | some beyond, some limit =>
      (some (.error "sink full"),
        (s.setStream scanner (resumeAt stream beyond)).reportDiagnostics (report.take limit))
    | _, _ =>
      let behind := s.setStream scanner (stream.startingBehind reading.stop.start.offset)
      (none, { behind.reportDiagnostics report with root := some reading.root })

/-- Carries out one command with a scanner, and tells what it threw. -/
def perform (s : Session) (scanner : Nat) (command : Command) : Option Fault × Session :=
  match command with
  | .report message => (none, s.report message)
  | .throw fault => (some fault, s)
  | .next =>
    match s.readToken scanner with
    | (.ok token, s) => (none, { s with observations := s.observations.push (.token token) })
    | (.error fault, s) => (some fault, s)
  | .dispose => (none, s.disposeOf scanner)
  | .aborted =>
    (none, { s with observations := s.observations.push (.aborted s.errors.aborted) })
  | .root root => (none, { s with root := some root })
  | .noRoot => (none, { s with root := none })
  | .grammar => s.readProgram scanner none
  | .grammarLimited limit => s.readProgram scanner (some limit)
  | .keep => (none, { s with handed := some scanner })

end Session

/-! ## Drivers -/

/-- What reads in a session. It ends with a fault if it throws. Otherwise it carries out a command
with any scanner that it knows of, and goes on depending on what the command threw and what the
session looks like now; so it may catch what was thrown. -/
inductive Driver where
  | stop (thrown : Option Fault)
  | perform (scanner : Nat) (command : Command) (next : Option Fault → Session → Driver)

namespace Driver

instance : Inhabited Driver := ⟨.stop none⟩

/-- Lets a driver act on a session, and tells what it threw. -/
def run (s : Session) : Driver → Option Fault × Session
  | stop thrown => (thrown, s)
  | perform scanner command next =>
    let (thrown, t) := s.perform scanner command
    (next thrown t).run t

/-- Whatever the driver throws, on whatever session, has a reason. -/
def Explains (driver : Driver) : Prop :=
  ∀ s fault, (driver.run s).1 = some fault → fault.HasReason

/-- Carries out commands with a scanner until one throws. -/
def ofCommands (scanner : Nat) : List Command → Driver
  | [] => stop none
  | command :: commands =>
    perform scanner command fun thrown _ =>
      match thrown with
      | some fault => stop (some fault)
      | none => ofCommands scanner commands

end Driver

/-- The driver that follows a script with the scanner it is given. -/
def Script.driver (script : Script) (scanner : Nat) : Driver :=
  match script with
  | .grammar => .ofCommands scanner [.grammar]
  | .commands todo => .ofCommands scanner (.keep :: todo)

namespace Session

/-- Whether there is a tree without placeholders. -/
def isComplete (s : Session) : Bool :=
  match s.root with
  | some root => (Node.root root).isComplete
  | none => false

/-- Makes sure that a session without errors has a complete tree. -/
def checkingTree (s : Session) : Attempt Unit :=
  if s.errors.messages.isEmpty && !s.isComplete then
    (s.telling .error "Grammar reported no errors but left the AST incomplete"
      [("hasRoot", .bool s.root.isSome)]).andThen fun _ s =>
        s.reporting "no parse errors returned, but AST is incomplete"
  else (.ok (), s)

/-- Tells that reading starts. -/
def tellingStart (s : Session) : Attempt Unit :=
  s.telling .debug "Parsing input" [("mode", .text s.input.mode)]

/-- The session that has told that reading starts. -/
def recordStart (s : Session) : Session :=
  s.tellingStart.2

/-- Tells how reading went. -/
def tellingEnd (s : Session) : Attempt Unit :=
  s.telling .debug "Parsed input"
    [("errors", .number s.errors.messages.size), ("dropped", .number s.errors.dropped)]

/-- Lets a driver read from the scanner in use, and sees to it that something was reported if there
is no complete tree. Only the driver is watched; what it throws is reported. -/
def readingBy (s : Session) (driver : Nat → Driver) : Attempt Unit :=
  match s.active with
  | none => s.reporting ("Failed to parse " ++ s.file ++ ": scanner was not constructed")
  | some scanner =>
    s.tellingStart.andThen fun _ s =>
      match (driver scanner).run s with
      | (some fault, s) => s.reportingFailure ("Failed to parse " ++ s.file) fault
      | (none, s) => s.checkingTree.andThen fun _ s => s.tellingEnd

/-- The session from which a driver has read. -/
def readBy (s : Session) (driver : Nat → Driver) : Session :=
  (s.readingBy driver).2

/-- Lets the session's own driver read. -/
def reading (s : Session) : Attempt Unit :=
  s.readingBy s.script.driver

/-- The session from which its own driver has read. -/
def read (s : Session) : Session :=
  s.reading.2

/-! ## Letting go -/

/-- Disposes of the scanner in use. -/
def releaseScanner (s : Session) : Session :=
  match s.active with
  | none => s
  | some scanner => { s.disposeOf scanner with active := none }

/-- Warns that something failed, and why. A fault without a reason throws here, too. -/
def tellingFailure (s : Session) (failure : String) (fault : Fault) : Attempt Unit :=
  match fault.describe with
  | .ok reason => s.telling .warn failure [("reason", .text reason)]
  | .error thrown => (.error thrown, s)

/-- Closes the descriptor that the session opened. It counts as closed whatever the file system
says. -/
def releasingDescriptor (s : Session) : Attempt Unit :=
  match s.owned with
  | none => (.ok (), s)
  | some descriptor =>
    let asked := { s with owned := none, calls := s.calls.push (.close descriptor) }
    match s.settings.files.closeDescriptor s.calls.toList descriptor with
    | .ok () => (.ok (), asked)
    | .error fault => asked.tellingFailure "Failed to close input file" fault

/-- Lets go of the scanner in use and of the descriptor that the session opened. -/
def releasing (s : Session) : Attempt Unit :=
  s.releaseScanner.releasingDescriptor

/-- The session that has let go of everything. -/
def release (s : Session) : Session :=
  s.releasing.2

/-! ## Whole sessions -/

/-- Gets hold of the input, and reads it if that worked. -/
def acquiringAndReading (s : Session) : Attempt Unit :=
  s.acquiring.andThen fun success s => if success then s.reading else (.ok (), s)

/-- Everything a session is made for, once. Whatever was thrown on the way, it lets go in the end,
and what is thrown then goes before. -/
def completing (s : Session) : Attempt Unit :=
  let (outcome, s) := s.acquiringAndReading
  s.releasing.andThen fun _ s => (outcome, s)

/-- The session that has done everything it is made for. -/
def complete (s : Session) : Session :=
  s.completing.2

/-- The lines that the session's logger has written. -/
def lines (s : Session) : List LogLine :=
  s.settings.logger.lines s.records.toList

end Session

end Cqasm
