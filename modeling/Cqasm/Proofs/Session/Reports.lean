import Cqasm.Proofs.Session.Operations

/-!
# What operations report

The messages that are reported while an operation is carried out, in their order, whether they come
from outside, from a scanner, from the grammar, from a driver or from the session's own failures
(`Operation.reports`, `Session.reports`). Each definition goes along with the one that it accounts
for, and beside it stands that nothing else happens to the error log (`Session.Told`): so the log is
what it becomes by these messages, and a warning about its limit is written when one of them makes
it give up, and only then.
-/

set_option autoImplicit false

namespace Cqasm

namespace Session

/-! ## Warnings about the limit -/

/-- The warning that the error log of a file has given up. -/
def limitWarning (file : String) (limit : Nat) : LogRecord :=
  { severity := .warn
    message := "Error limit reached"
    context := some [("filename", .text file), ("maxErrors", .number limit)] }

/-- The records with the message of such a warning. -/
def limitWarnings (s : Session) : List LogRecord :=
  s.records.toList.filter (·.message = "Error limit reached")

/-- A session has become another one by reporting messages. It may have done other things, but
nothing to its error log, and it has not warned about the limit but when the log gave up. -/
structure Told (s : Session) (messages : List String) (t : Session) : Prop where
  input : t.input = s.input
  settings : t.settings = s.settings
  errors : t.errors = messages.foldl ErrorLog.add s.errors
  warnings : t.limitWarnings = s.limitWarnings ++
    if t.errors.aborted && !s.errors.aborted then [limitWarning s.file s.errors.limit] else []

variable {s t u : Session} {messages messages' : List String} {scanner : Nat}

namespace Told

theorem refl (s : Session) : Told s [] s :=
  ⟨rfl, rfl, rfl, by simp⟩

theorem trans (h : Told s messages t) (h' : Told t messages' u) :
    Told s (messages ++ messages') u where
  input := h'.input.trans h.input
  settings := h'.settings.trans h.settings
  errors := by rw [h'.errors, h.errors, List.foldl_append]
  warnings := by
    have hfile : t.file = s.file := congrArg Input.file h.input
    have hlimit : t.errors.limit = s.errors.limit := by rw [h.errors, ErrorLog.limit_foldl_add]
    rw [h'.warnings, h.warnings, hfile, hlimit, List.append_assoc]
    -- Once the log has given up it stays so.
    cases hs : s.errors.aborted with
    | true =>
      have ht : t.errors.aborted := h.errors ▸ ErrorLog.aborted_foldl_add hs
      simp [ht]
    | false =>
      cases ht : t.errors.aborted with
      | true =>
        have hu : u.errors.aborted := h'.errors ▸ ErrorLog.aborted_foldl_add ht
        simp [hu]
      | false => simp

/-- The error log and the records apart, nothing matters. -/
theorem adjust (h : Told s messages t) (root : Option Root) (scanners : Array Scanner)
    (active : Option Nat) (owned : Option Int) (calls : Array FileCall)
    (observations : Array Observation) (handed : Option Nat) :
    Told s messages { t with root, scanners, active, owned, calls, observations, handed } :=
  ⟨h.input, h.settings, h.errors, h.warnings⟩

end Told

/-- A record with another message is no warning about the limit. -/
theorem told_record (s : Session) (severity : Severity) {message : String}
    (h : message ≠ "Error limit reached") (context : List (String × LogValue)) :
    Told s [] (s.record severity message context) :=
  ⟨rfl, rfl, rfl, by simp [limitWarnings, record, telling, recordOf, h]⟩

/-- The warning is written in the very step that makes the log give up. -/
theorem told_report (s : Session) (message : String) : Told s [message] (s.report message) where
  input := (s.sameFiles_report message).input
  settings := (s.sameFiles_report message).settings
  errors := s.errors_report message
  warnings := by
    rw [errors_report, report, reporting]
    dsimp only
    split
    · simp [limitWarnings, telling, recordOf, limitWarning, file]
    · exact (List.append_nil _).symm

/-- One message after the other, by induction on them. -/
theorem told_reportAll (s : Session) (messages : List String) :
    Told s messages (s.reportAll messages) := by
  induction messages generalizing s with
  | nil => exact .refl s
  | cons message messages ih => exact (s.told_report message).trans (ih (s.report message))

/-- What is reported of a failure: one message, if there is a reason to tell. -/
def failureReports (failure : String) (fault : Fault) : List String :=
  if fault.HasReason then [failure ++ ": " ++ fault.reason] else []

/-- A failure that has no reason is not told of, and what describing it throws is thrown on. -/
theorem told_reportingFailure (s : Session) (failure : String) (fault : Fault) :
    Told s (failureReports failure fault) (s.reportingFailure failure fault).2 := by
  rw [failureReports]
  split
  · next h =>
    rw [reportingFailure_of_hasReason h]
    exact s.told_report _
  · next h =>
    obtain ⟨thrown, hthrown⟩ := Fault.exists_describe_eq_error h
    rw [reportingFailure_of_error hthrown]
    exact .refl s

/-! ## Reading -/

theorem told_setStream (s : Session) (scanner : Nat) (rest : TokenStream) :
    Told s [] (s.setStream scanner rest) :=
  (Told.refl s).adjust ..

/-- What is reported while a token is read. -/
def tokenReports (s : Session) (scanner : Nat) : List String :=
  match s.stream? scanner with
  | none => []
  | some stream => stream.next.report.map (·.message s.file)

/-- A token is reported on in the same step in which it is handed out. -/
theorem told_readToken (s : Session) (scanner : Nat) :
    Told s (s.tokenReports scanner) (s.readToken scanner).2 := by
  cases hstream : s.stream? scanner with
  | none =>
    rw [readToken, tokenReports, hstream]
    exact .refl s
  | some stream =>
    rw [readToken, tokenReports, hstream]
    exact (told_setStream s scanner stream.next.rest).trans (told_reportAll ..)

/-- What is reported while a program is read by the grammar. A limit cuts the report off. -/
def programReports (s : Session) (scanner : Nat) (limit : Option Nat) : List String :=
  match s.stream? scanner with
  | none => []
  | some stream =>
    let report := (Reading.ofStream s.errors.isExhaustedBy s.file stream).report stream
    (limit.elim report report.take).map (·.message s.file)

/-- A limited reading stops in front of the first message that is too many. -/
theorem told_readProgram (s : Session) (scanner : Nat) (limit : Option Nat) :
    Told s (s.programReports scanner limit) (s.readProgram scanner limit).2 := by
  cases hstream : s.stream? scanner with
  | none =>
    rw [readProgram, programReports, hstream]
    exact .refl s
  | some stream =>
    rw [readProgram, programReports, hstream]
    dsimp only
    generalize Reading.ofStream s.errors.isExhaustedBy s.file stream = reading
    have hwhole := (s.told_setStream scanner
      (stream.startingBehind reading.stop.start.offset)).trans
        (told_reportAll _ ((reading.report stream).map (·.message s.file)))
    cases limit with
    | none => exact hwhole.adjust ..
    | some limit =>
      dsimp only [Option.bind_some, Option.elim_some]
      cases hbeyond : (reading.report stream)[limit]? with
      | none =>
        rw [List.take_of_length_le (List.getElem?_eq_none_iff.1 hbeyond)]
        exact hwhole.adjust ..
      | some beyond => exact (s.told_setStream scanner _).trans (told_reportAll ..)

end Session

/-! ## Drivers -/

/-- What is reported while a command is carried out with a scanner. -/
def Command.reports (s : Session) (scanner : Nat) : Command → List String
  | .report message => [message]
  | .next => s.tokenReports scanner
  | .grammar => s.programReports scanner none
  | .grammarLimited limit => s.programReports scanner (some limit)
  | .throw _ | .dispose | .aborted | .root _ | .noRoot | .keep => []

/-- What is reported while a driver acts on a session. -/
def Driver.reports (s : Session) : Driver → List String
  | stop _ => []
  | perform scanner command next =>
    let (thrown, t) := s.perform scanner command
    command.reports s scanner ++ (next thrown t).reports t

namespace Session

/-- Every command but those that read or report leaves the log alone. -/
theorem told_perform (s : Session) (scanner : Nat) (command : Command) :
    Told s (command.reports s scanner) (s.perform scanner command).2 := by
  cases command with
  | report message => exact s.told_report message
  | next =>
    have hread := s.told_readToken scanner
    rw [perform]
    generalize s.readToken scanner = read at hread ⊢
    rcases read with ⟨fault | token, t⟩
    · exact hread
    · exact hread.adjust ..
  | grammar => exact s.told_readProgram scanner none
  | grammarLimited limit => exact s.told_readProgram scanner (some limit)
  | throw => exact .refl s
  | dispose | aborted | root | noRoot | keep => exact (Told.refl s).adjust ..

/-- By induction on the driver: what it does next depends on what came back. -/
theorem told_run (s : Session) (driver : Driver) :
    Told s (driver.reports s) (driver.run s).2 := by
  induction driver generalizing s with
  | stop thrown => exact .refl s
  | perform scanner command next ih =>
    exact (s.told_perform scanner command).trans (ih _ _ _)

/-- What is reported when the tree is looked at. -/
def treeReports (s : Session) : List String :=
  if s.errors.messages.isEmpty && !s.isComplete then
    ["no parse errors returned, but AST is incomplete"]
  else []

/-- A tree with something missing is complained about only if nothing else was. -/
theorem told_checkTree (s : Session) : Told s s.treeReports s.checkTree := by
  rw [checkTree, treeReports]
  by_cases h : s.errors.messages.isEmpty && !s.isComplete
  · rw [checkingTree_of_incomplete h, if_pos h]
    exact (s.told_record .error (by decide) _).trans (told_report ..)
  · rw [checkingTree, if_neg h, if_neg h]
    exact .refl s

/-- What is reported while a driver reads from the scanner in use, the session's own failures
included. -/
def readReports (s : Session) (driver : Nat → Driver) : List String :=
  match s.active with
  | none => ["Failed to parse " ++ s.file ++ ": scanner was not constructed"]
  | some scanner =>
    (driver scanner).reports s.recordStart ++
      match (driver scanner).run s.recordStart with
      | (some fault, t) => failureReports ("Failed to parse " ++ t.file) fault
      | (none, t) => t.treeReports

theorem told_recordStart (s : Session) : Told s [] s.recordStart :=
  s.told_record .debug (by decide) _

/-- Without a scanner there is one message; with one, those of the driver come first. -/
theorem told_readBy (s : Session) (driver : Nat → Driver) :
    Told s (s.readReports driver) (s.readBy driver) := by
  rw [readBy, readReports]
  cases hactive : s.active with
  | none =>
    rw [readingBy_of_none hactive]
    exact s.told_report _
  | some scanner =>
    have hrun := s.told_recordStart.trans (s.recordStart.told_run (driver scanner))
    dsimp only
    rcases heq : (driver scanner).run s.recordStart with ⟨_ | fault, t⟩ <;> rw [heq] at hrun
    · rw [readingBy_of_returned hactive heq]
      have hend : Told t.checkTree [] t.checkTree.recordEnd :=
        t.checkTree.told_record .debug (by decide) _
      have hread := (hrun.trans t.told_checkTree).trans hend
      rwa [List.append_nil] at hread
    · rw [readingBy_of_thrown hactive heq]
      exact hrun.trans (told_reportingFailure ..)

/-! ## Getting hold of the input and letting go -/

/-- What is reported while a descriptor is read. -/
def descriptorReports (s : Session) (descriptor : Int) : List String :=
  match s.settings.files.readAll s.calls.toList descriptor with
  | .ok _ => []
  | .error fault => failureReports ("Failed to read input file " ++ s.file) fault

/-- What is reported while a path is opened and read. -/
def pathReports (s : Session) (path : String) : List String :=
  match s.settings.files.openPath s.calls.toList path with
  | .ok descriptor =>
    descriptorReports { s with calls := s.calls.push (.open path), owned := some descriptor }
      descriptor
  | .error fault => failureReports ("Failed to open input file " ++ s.file) fault

/-- What is reported while the input is fetched. -/
def fetchReports (s : Session) : List String :=
  match s.input with
  | .string .. => []
  | .descriptor descriptor _ => s.descriptorReports descriptor
  | .path path => s.pathReports path

/-- What is reported while a scanner is made for what the input has yielded. -/
def scannerReports (s : Session) : Option Contents → List String
  | some (.unreadable fault) => failureReports ("Failed to construct scanner for " ++ s.file) fault
  | _ => []

/-- What is reported while the session gets hold of its input. -/
def acquireReports (s : Session) : List String :=
  s.fetchReports ++
    match s.fetch.1 with
    | .ok contents => s.scannerReports contents
    | .error _ => []

theorem told_fetchDescriptor (s : Session) (descriptor : Int) :
    Told s (s.descriptorReports descriptor) (s.fetchDescriptor descriptor).2 := by
  have hasked : Told s [] { s with calls := s.calls.push (.read descriptor) } :=
    (Told.refl s).adjust ..
  rw [descriptorReports]
  cases hanswer : s.settings.files.readAll s.calls.toList descriptor with
  | ok contents =>
    rw [fetchDescriptor_of_ok hanswer]
    exact hasked
  | error fault =>
    rw [fetchDescriptor_of_error hanswer]
    exact hasked.trans (told_reportingFailure ..)

theorem told_fetchPath (s : Session) (path : String) :
    Told s (s.pathReports path) (s.fetchPath path).2 := by
  cases hanswer : s.settings.files.openPath s.calls.toList path with
  | ok descriptor =>
    have hasked : Told s []
        { s with calls := s.calls.push (.open path), owned := some descriptor } :=
      (Told.refl s).adjust ..
    rw [fetchPath_of_ok hanswer, pathReports, hanswer]
    exact hasked.trans (told_fetchDescriptor ..)
  | error fault =>
    have hasked : Told s [] { s with calls := s.calls.push (.open path) } :=
      (Told.refl s).adjust ..
    rw [fetchPath_of_error hanswer, pathReports, hanswer]
    exact hasked.trans (told_reportingFailure ..)

/-- A string is there already; a descriptor is read, and a path is opened first. -/
theorem told_fetch (s : Session) : Told s s.fetchReports s.fetch.2 := by
  rw [fetch, fetchReports]
  cases s.input with
  | string => exact .refl s
  | descriptor descriptor => exact s.told_fetchDescriptor descriptor
  | path path => exact s.told_fetchPath path

theorem told_scannerFor (s : Session) (contents : Option Contents) :
    Told s (s.scannerReports contents) (s.scannerFor contents).2 := by
  rcases contents with _ | text | fault
  · exact .refl s
  · exact (Told.refl s).adjust ..
  · exact s.told_reportingFailure _ fault

/-- What fetching reports comes before what the scanner for it reports. -/
theorem told_acquire (s : Session) : Told s s.acquireReports s.acquire.2 := by
  have hfetch := s.told_fetch
  show Told s s.acquireReports s.acquiring.2
  rw [acquiring, acquireReports]
  rcases hfetched : s.fetch with ⟨thrown | contents, t⟩ <;> rw [hfetched] at hfetch
  · rwa [List.append_nil]
  · have hfile : t.file = s.file := congrArg Input.file hfetch.input
    have hreports : s.scannerReports contents = t.scannerReports contents := by
      rw [scannerReports.eq_def, scannerReports.eq_def, hfile]
    rw [Attempt.andThen_ok]
    dsimp only
    rw [hreports]
    exact hfetch.trans (t.told_scannerFor contents)

theorem told_releaseScanner (s : Session) : Told s [] s.releaseScanner := by
  rw [releaseScanner]
  split
  · exact .refl s
  · exact (Told.refl s).adjust ..

/-- A descriptor that cannot be closed is a warning in the records, and no message in the log. -/
theorem told_releaseDescriptor (s : Session) : Told s [] s.releaseDescriptor := by
  rw [releaseDescriptor, releasingDescriptor]
  split
  · exact .refl s
  · next descriptor _ =>
    have hasked : Told s []
        { s with owned := none, calls := s.calls.push (.close descriptor) } :=
      (Told.refl s).adjust ..
    dsimp only
    split
    · exact hasked
    · rw [tellingFailure]
      split
      · exact hasked.trans (told_record _ .warn (by decide) _)
      · exact hasked

theorem told_release (s : Session) : Told s [] s.release :=
  s.told_releaseScanner.trans s.releaseScanner.told_releaseDescriptor

end Session

/-! ## Operations -/

/-- What is reported while an operation is carried out. -/
def Operation.reports (s : Session) : Operation → List String
  | .acquire => s.acquireReports
  | .read driver => s.readReports driver
  | .report message => [message]
  | .next scanner => s.tokenReports scanner
  | .release | .finish => []

namespace Session

/-- What is reported while operations are carried out. -/
def reports (s : Session) : List Operation → List String
  | [] => []
  | operation :: operations =>
    operation.reports s ++ (s.carryOut operation).2.reports operations

theorem told_carryOut (s : Session) (operation : Operation) :
    Told s (operation.reports s) (s.carryOut operation).2 := by
  cases operation with
  | acquire => exact s.told_acquire
  | read driver => exact s.told_readBy driver
  | report message => exact s.told_report message
  | release => exact s.told_release
  | finish => exact .refl s
  | next scanner => exact s.told_readToken scanner

/-- The messages of operations are those of each of them, in their order. -/
theorem told_after (s : Session) (operations : List Operation) :
    Told s (s.reports operations) (s.after operations) := by
  induction operations generalizing s with
  | nil => exact .refl s
  | cons operation operations ih => exact (s.told_carryOut operation).trans (ih _)

end Session

end Cqasm
