import Cqasm.Proofs.Files
import Cqasm.Proofs.Session.Reports

/-!
# No more messages than asked for

Whatever is done to a session, its errors are the first messages that were reported, up to the
limit, with a notice behind them once there have been more; those are counted, and the first of them
is worth one warning (`errors_capped`). It makes no difference who reports a message: operations and
drivers add theirs one after the other (`Session.told_after`, `Session.told_run`), and what the log
keeps depends on the row of all of them alone (`Session.Told.capped`).
-/

set_option autoImplicit false

namespace Cqasm

namespace Session

/-- What a session has to show for the messages that have been reported so far. -/
structure Capped (s : Session) (limit : Nat) (messages : List String) : Prop where
  errors_eq : s.result.errors =
    messages.take limit ++ if limit < messages.length then [ErrorLog.notice limit] else []
  dropped_eq : s.errors.dropped = messages.length - limit
  aborted_iff : s.errors.aborted ↔ limit < messages.length
  warnings_eq : s.limitWarnings =
    if limit < messages.length then [limitWarning s.file limit] else []

variable {s : Session} {input : Input} {settings : Settings} {script : Script}
  {messages : List String}

theorem Told.capped (h : Told (start input settings script) messages s) :
    s.Capped settings.limit messages := by
  have herrors : s.errors = messages.foldl ErrorLog.add (.empty settings.limit) := h.errors
  have haborted : s.errors.aborted ↔ settings.limit < messages.length := by
    rw [herrors, ErrorLog.aborted_foldl_add_iff]
  have hfile : s.file = input.file := congrArg Input.file h.input
  refine ⟨?_, ?_, haborted, ?_⟩
  · rw [result, herrors]
    exact ErrorLog.messages_foldl_add settings.limit messages
  · rw [herrors]
    exact ErrorLog.dropped_foldl_add settings.limit messages
  · have hnone : (start input settings script).limitWarnings = [] := rfl
    have hfresh : (start input settings script).errors.aborted = false := rfl
    rw [h.warnings, hnone, hfresh, List.nil_append, Bool.not_false, Bool.and_true, hfile]
    exact if_congr haborted rfl rfl

/-- Flag and count of the error log agree, at any moment at which messages have been reported. -/
theorem Told.agrees (h : Told (start input settings script) messages s) : s.errors.Agrees := by
  rw [h.errors]
  exact ErrorLog.agrees_foldl_add (ErrorLog.agrees_empty settings.limit) messages

/-- They agree whatever is done to a session. -/
theorem agrees_after (input : Input) (settings : Settings) (script : Script)
    (operations : List Operation) :
    ((start input settings script).after operations).errors.Agrees :=
  (told_after ..).agrees

end Session

/-- However many messages are reported to a session, by whom and in the course of which operations,
in the midst of a reading too: it keeps the first ones up to its limit and a single notice of the
rest, counts the rest, gives up with the first of them, for good, and warns of that once. The limit
is above zero whatever number was asked for. -/
theorem errors_capped (input : Input) (logger : Logger) (asked : Option Binary64)
    (files : FileSystem) (script : Script) (operations : List Operation) :
    let limit := Settings.limitOf asked
    let fresh := Session.start input { logger, limit, files } script
    let s := fresh.after operations
    let messages := fresh.reports operations
    0 < limit ∧ s.Capped limit messages ∧
      (∀ driver : Driver, (driver.run s.recordStart).2.Capped limit
        (messages ++ driver.reports s.recordStart)) ∧
      ∀ later, s.errors.aborted → (s.after later).errors.aborted := by
  intro limit fresh s messages
  have htold : fresh.Told messages s := fresh.told_after operations
  refine ⟨Settings.limitOf_pos asked, htold.capped, fun driver => ?_, fun later haborted => ?_⟩
  · have hstarted := htold.trans s.told_recordStart
    rw [List.append_nil] at hstarted
    exact (hstarted.trans (s.recordStart.told_run driver)).capped
  · rw [(s.told_after later).errors]
    exact ErrorLog.aborted_foldl_add haborted

/-- With a limit of one, a message from outside is kept. That the input cannot be opened, that there
is no scanner, and another message from outside are only counted. -/
theorem errors_capped_at_one :
    let asked : Option Binary64 := some ⟨0x3ff0000000000000⟩
    let operations : List Operation :=
      [.report "first", .acquire, .read (Script.driver .grammar), .release, .report "last"]
    let fresh := Session.start (.path "none.cq")
      { logger := .silent, limit := Settings.limitOf asked, files := .empty } .grammar
    let s := fresh.after operations
    fresh.reports operations =
        ["first", "Failed to open input file none.cq: ENOENT: no such file or directory, " ++
            "open 'none.cq'",
          "Failed to parse none.cq: scanner was not constructed", "last"] ∧
      s.result.errors = ["first", "too many errors, giving up after 1"] ∧ s.errors.dropped = 3 ∧
      s.errors.aborted ∧ (s.after [.acquire]).errors.aborted ∧
      s.limitWarnings = [Session.limitWarning "none.cq" 1] := by
  intro asked operations fresh s
  have hreports : fresh.reports operations =
      ["first", "Failed to open input file none.cq: ENOENT: no such file or directory, " ++
          "open 'none.cq'",
        "Failed to parse none.cq: scanner was not constructed", "last"] := by
    decide +kernel
  have hlimit : Settings.limitOf asked = 1 := by decide +kernel
  obtain ⟨-, hcapped, -, hforever⟩ :=
    errors_capped (.path "none.cq") .silent asked .empty .grammar operations
  change s.Capped (Settings.limitOf asked) (fresh.reports operations) at hcapped
  rw [hlimit, hreports] at hcapped
  -- four messages are more than one
  have haborted : s.errors.aborted := hcapped.aborted_iff.2 (by decide)
  have hfile : s.file = "none.cq" := congrArg Input.file (fresh.told_after operations).input
  refine ⟨hreports, ?_, hcapped.dropped_eq.trans (by decide), haborted,
    hforever [.acquire] haborted, ?_⟩
  · rw [hcapped.errors_eq]
    decide +kernel
  · rw [hcapped.warnings_eq, hfile]
    rfl

end Cqasm
