import Cqasm.Proofs.Session.Attempts
import Cqasm.Proofs.Session.ErrorLog
import Cqasm.Proofs.Session.Patience

/-!
# Sessions that parse a text

What a session that parses a text comes to, without its bookkeeping: the tree is the one that was
read, and the error log was given the whole report (`parseSession_root`, `parseSession_errors`). As
long as the log has not given up, the reading is the one without a limit
(`limitedReading_eq_of_length_le`).
-/

set_option autoImplicit false

namespace Cqasm

namespace Session

variable (s : Session)

theorem errors_report (message : String) : (s.report message).errors = s.errors.add message := by
  rw [report, reporting]
  split <;> rfl

theorem root_report (message : String) : (s.report message).root = s.root := by
  rw [report, reporting]
  split <;> rfl

/-- The log takes the messages one by one. -/
theorem errors_reportAll (messages : List String) :
    (s.reportAll messages).errors = messages.foldl ErrorLog.add s.errors := by
  induction messages generalizing s with
  | nil => rfl
  | cons message messages ih =>
    rw [reportAll, List.foldl_cons, List.foldl_cons, ← errors_report]
    exact ih _

/-- A last message is reported exactly if there is none and the tree is not complete. -/
theorem errors_checkTree :
    s.checkTree.errors =
      if s.errors.messages.isEmpty && !s.isComplete then
        s.errors.add "no parse errors returned, but AST is incomplete"
      else s.errors := by
  by_cases h : s.errors.messages.isEmpty && !s.isComplete
  · rw [if_pos h, checkTree, checkingTree_of_incomplete h, errors_report]
    rfl
  · rw [if_neg h, checkTree, checkingTree, if_neg h]

theorem root_checkTree : s.checkTree.root = s.root := by
  by_cases h : s.errors.messages.isEmpty && !s.isComplete
  · rw [checkTree, checkingTree_of_incomplete h, root_report]
    rfl
  · rw [checkTree, checkingTree, if_neg h]

theorem errors_recordEnd : s.recordEnd.errors = s.errors := rfl

theorem root_recordEnd : s.recordEnd.root = s.root := rfl

theorem errors_release : s.release.errors = s.errors := by
  obtain ⟨_, _, _, _, _, heq⟩ := s.exists_release
  rw [heq]

theorem root_release : s.release.root = s.root := by
  obtain ⟨_, _, _, _, _, heq⟩ := s.exists_release
  rw [heq]

/-! ## Reading by the grammar -/

/-- A session whose grammar has read a stream and reported everything. -/
def afterGrammar (scanner : Nat) (stream : TokenStream) : Session :=
  let reading := Reading.ofStream s.errors.isExhaustedBy s.file stream
  let behind := s.setStream scanner (stream.startingBehind reading.stop.start.offset)
  { behind.reportDiagnostics (reading.report stream) with root := some reading.root }

variable {s} {scanner : Nat} {stream : TokenStream}

/-- The driver of a plain parse hands the scanner to the grammar once. -/
theorem run_driver_grammar (hscript : s.script = .grammar)
    (hstream : s.stream? scanner = some stream) :
    (s.script.driver scanner).run s = (none, s.afterGrammar scanner stream) := by
  rw [hscript, Script.driver, Driver.ofCommands, Driver.run, perform, readProgram, hstream]
  rfl

theorem read_eq (hscript : s.script = .grammar) (hactive : s.active = some scanner)
    (hstream : s.stream? scanner = some stream) :
    s.read = (s.recordStart.afterGrammar scanner stream).checkTree.recordEnd := by
  have hrun : (s.script.driver scanner).run s.recordStart = _ :=
    run_driver_grammar (s := s.recordStart) hscript hstream
  rw [read, reading, readingBy_of_returned hactive hrun]

theorem root_read (hscript : s.script = .grammar) (hactive : s.active = some scanner)
    (hstream : s.stream? scanner = some stream) :
    s.read.root = some (Reading.ofStream s.errors.isExhaustedBy s.file stream).root := by
  rw [read_eq hscript hactive hstream, root_recordEnd, root_checkTree]
  rfl

/-- What is reported by the grammar comes first, then the complaint about the tree. -/
theorem errors_read (hscript : s.script = .grammar) (hactive : s.active = some scanner)
    (hstream : s.stream? scanner = some stream) :
    s.read.errors =
      let reading := Reading.ofStream s.errors.isExhaustedBy s.file stream
      let log := ((reading.report stream).map (·.message s.file)).foldl ErrorLog.add s.errors
      if log.messages.isEmpty && !(Node.root reading.root).isComplete then
        log.add "no parse errors returned, but AST is incomplete"
      else log := by
  have hlog : (s.recordStart.afterGrammar scanner stream).errors = _ := errors_reportAll _ _
  rw [read_eq hscript hactive hstream, errors_recordEnd, errors_checkTree, hlog]
  rfl

end Session

/-! ## Readings of a text -/

/-- The tokens and stray characters of a text. -/
abbrev streamOf (text : String) : TokenStream :=
  .ofText text.toList

/-- What is read of a text when at most so many messages are kept. -/
abbrev limitedReading (limit : Nat) (file text : String) : Reading :=
  .ofStream (ErrorLog.empty limit).isExhaustedBy file (streamOf text)

/-- What is read of a text however much is wrong with it. -/
abbrev wholeReading (file text : String) : Reading :=
  .ofStream (fun _ => false) file (streamOf text)

/-- The messages of a reading. -/
def messagesOf (file text : String) (reading : Reading) : List String :=
  (reading.report (streamOf text)).map (·.message file)

/-- A log that starts empty gives up with the first message beyond its limit. -/
theorem isExhaustedBy_empty_iff {limit n : Nat} :
    (ErrorLog.empty limit).isExhaustedBy n ↔ limit < n := by
  simp [ErrorLog.isExhaustedBy, ErrorLog.empty, ErrorLog.aborted]

variable {settings : Settings} {text file : String}

/-- A limit that its own reading does not pass makes no difference. -/
theorem limitedReading_eq_of_length_le {limit : Nat}
    (h : (messagesOf file text (limitedReading limit file text)).length ≤ limit) :
    limitedReading limit file text = wholeReading file text := by
  rcases Reading.ofStream_eq_or_exhausted (ErrorLog.empty limit).isExhaustedBy file (streamOf text)
    with heq | ⟨n, hn, hle, -⟩
  · exact heq
  · have hlt := isExhaustedBy_empty_iff.1 hn
    rw [messagesOf, List.length_map] at h
    exact absurd (Nat.le_trans hle h) (Nat.not_le.2 hlt)

/-- Neither does one for which there are not enough diagnostics. -/
theorem limitedReading_eq_of_errors_le {limit : Nat}
    (h : (wholeReading file text).errors.length + (streamOf text).diagnostics.length ≤ limit) :
    limitedReading limit file text = wholeReading file text := by
  rcases Reading.ofStream_eq_or_exhausted (ErrorLog.empty limit).isExhaustedBy file (streamOf text)
    with heq | ⟨n, hn, -, hle⟩
  · exact heq
  · have hlt := isExhaustedBy_empty_iff.1 hn
    exact absurd (Nat.le_trans hle h) (Nat.not_le.2 hlt)

/-! ## Sessions -/

theorem Session.stream?_addScanner (s : Session) (text : String) :
    (s.addScanner text).stream? s.scanners.size = some (streamOf text) := by
  simp [addScanner, stream?]

/-- A text needs no file, so its session is reading and releasing. -/
theorem parseSession_eq :
    parseSession settings (.string text file) =
      ((Session.start (.string text file) settings .grammar).addScanner text).read.release :=
  Session.complete_of_acquired rfl

theorem parseSession_root :
    (parseSession settings (.string text file)).root =
      some (limitedReading settings.limit file text).root := by
  rw [parseSession_eq, Session.root_release,
    Session.root_read rfl rfl (Session.stream?_addScanner _ text)]
  rfl

/-- The error log was given the report, and then a last message if there was none although the tree
is not complete. -/
theorem parseSession_errors :
    (parseSession settings (.string text file)).errors =
      let reading := limitedReading settings.limit file text
      let log := (messagesOf file text reading).foldl ErrorLog.add (.empty settings.limit)
      if log.messages.isEmpty && !(Node.root reading.root).isComplete then
        log.add "no parse errors returned, but AST is incomplete"
      else log := by
  rw [parseSession_eq, Session.errors_release,
    Session.errors_read rfl rfl (Session.stream?_addScanner _ text)]
  rfl

end Cqasm
