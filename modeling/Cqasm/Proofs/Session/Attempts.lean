import Cqasm.Session.Operation

/-!
# What operations return and throw

An operation calls what it knows nothing about, and this module says what becomes of that. The
logger returns, so telling it something and reporting a message do (`Session.telling_eq`,
`Session.reporting_eq`); what a file system or a driver throws is caught and told. It is only when a
fault is asked for its reason that something can get past an operation, so an operation returns if
whatever is thrown at it has a reason (`Session.acquiring_eq_ok`, `Session.readingBy_eq_ok`,
`Session.releasing_eq_ok`).

A reading is looked at in three cases, for which there is one equation each: there is no scanner,
the driver throws, or it returns (`Session.readingBy_of_none`, `Session.readingBy_of_thrown`,
`Session.readingBy_of_returned`). All that is said about readings elsewhere is said by way of them.
-/

set_option autoImplicit false

namespace Cqasm.Session

variable {s t : Session} {scanner : Nat} {driver : Nat → Driver} {fault : Fault}

namespace Attempt

variable {α β : Type}

@[simp] theorem andThen_ok (value : α) (s : Session) (next : α → Session → Attempt β) :
    andThen (.ok value, s) next = next value s := rfl

end Attempt

/-! ## Failures -/

/-- A failure with a reason is reported. -/
theorem reportingFailure_of_hasReason (h : fault.HasReason) (s : Session) (failure : String) :
    s.reportingFailure failure fault = (.ok (), s.report (failure ++ ": " ++ fault.reason)) := by
  rw [reportingFailure, show fault.describe = _ from h]
  exact s.reporting_eq _

/-- A failure without one is not, and what is thrown instead gets out. -/
theorem reportingFailure_of_error {thrown : Fault} (h : fault.describe = .error thrown)
    (s : Session) (failure : String) :
    s.reportingFailure failure fault = (.error thrown, s) := by
  rw [reportingFailure, h]

/-- Either way, all that is done to the session is to report a message or nothing. -/
theorem exists_reportingFailure (s : Session) (failure : String) (fault : Fault) :
    ∃ result messages, s.reportingFailure failure fault = (result, s.reportAll messages) := by
  by_cases h : fault.HasReason
  · exact ⟨_, [_], reportingFailure_of_hasReason h s failure⟩
  · obtain ⟨thrown, hthrown⟩ := Fault.exists_describe_eq_error h
    exact ⟨_, [], reportingFailure_of_error hthrown s failure⟩

/-! ## Reading -/

/-- The session that has told how reading went. -/
def recordEnd (s : Session) : Session :=
  s.tellingEnd.2

/-- The session that has made sure of its tree. -/
def checkTree (s : Session) : Session :=
  s.checkingTree.2

theorem tellingStart_eq (s : Session) : s.tellingStart = (.ok (), s.recordStart) :=
  s.telling_eq ..

theorem tellingEnd_eq (s : Session) : s.tellingEnd = (.ok (), s.recordEnd) :=
  s.telling_eq ..

/-- If there is neither a message nor a complete tree, there is a message in the end. -/
theorem checkingTree_of_incomplete (h : s.errors.messages.isEmpty && !s.isComplete) :
    s.checkingTree =
      (.ok (),
        (s.record .error "Grammar reported no errors but left the AST incomplete"
          [("hasRoot", .bool s.root.isSome)]).report
            "no parse errors returned, but AST is incomplete") := by
  rw [checkingTree, if_pos h, telling_eq, Attempt.andThen_ok, reporting_eq]

theorem checkingTree_eq (s : Session) : s.checkingTree = (.ok (), s.checkTree) := by
  rw [checkTree]
  by_cases h : s.errors.messages.isEmpty && !s.isComplete
  · rw [checkingTree_of_incomplete h]
  · rw [checkingTree, if_neg h]

theorem readingBy_of_none (hactive : s.active = none) (driver : Nat → Driver) :
    s.readingBy driver =
      (.ok (), s.report ("Failed to parse " ++ s.file ++ ": scanner was not constructed")) := by
  rw [readingBy, hactive]
  exact s.reporting_eq _

/-- What a driver throws is caught, wherever it comes from. -/
theorem readingBy_of_thrown (hactive : s.active = some scanner)
    (hrun : (driver scanner).run s.recordStart = (some fault, t)) :
    s.readingBy driver = t.reportingFailure ("Failed to parse " ++ t.file) fault := by
  rw [readingBy, hactive]
  dsimp only
  rw [tellingStart_eq, Attempt.andThen_ok, hrun]

theorem readingBy_of_returned (hactive : s.active = some scanner)
    (hrun : (driver scanner).run s.recordStart = (none, t)) :
    s.readingBy driver = (.ok (), t.checkTree.recordEnd) := by
  rw [readingBy, hactive]
  dsimp only
  rw [tellingStart_eq, Attempt.andThen_ok, hrun]
  dsimp only
  rw [checkingTree_eq, Attempt.andThen_ok, tellingEnd_eq]

/-- A reading returns, if what its driver throws has a reason. -/
theorem readingBy_eq_ok (hdriver : ∀ scanner, (driver scanner).Explains) (s : Session) :
    s.readingBy driver = (.ok (), s.readBy driver) := by
  suffices h : (s.readingBy driver).1 = .ok () from Prod.ext h rfl
  cases hactive : s.active with
  | none => rw [readingBy_of_none hactive]
  | some scanner =>
    rcases hrun : (driver scanner).run s.recordStart with ⟨_ | fault, t⟩
    · rw [readingBy_of_returned hactive hrun]
    · have hreason : fault.HasReason := hdriver scanner s.recordStart fault (by rw [hrun])
      rw [readingBy_of_thrown hactive hrun, reportingFailure_of_hasReason hreason]

/-! ## Drivers that explain what they throw -/

/-- Reading a program by the grammar without a limit throws at most that there is no scanner. -/
theorem hasReason_readProgram (s : Session) (scanner : Nat)
    (h : (s.readProgram scanner none).1 = some fault) : fault.HasReason := by
  rw [readProgram] at h
  split at h
  · obtain rfl := Option.some.inj h
    rfl
  · cases h

/-- The usual driver explains what it throws. -/
theorem explains_driver_grammar (scanner : Nat) : (Script.driver .grammar scanner).Explains := by
  intro s fault hthrown
  rw [Script.driver, Driver.ofCommands, Driver.run] at hthrown
  rcases hread : s.perform scanner .grammar with ⟨_ | thrown, t⟩ <;> rw [hread] at hthrown
  · cases hthrown
  · obtain rfl := Option.some.inj hthrown
    exact hasReason_readProgram s scanner (congrArg Prod.fst hread)

/-! ## Getting hold of the input -/

theorem fetchPath_of_ok {path : String} {descriptor : Int}
    (h : s.settings.files.openPath s.calls.toList path = .ok descriptor) :
    s.fetchPath path =
      fetchDescriptor { s with calls := s.calls.push (.open path), owned := some descriptor }
        descriptor := by
  rw [fetchPath, h]

theorem fetchPath_of_error {path : String}
    (h : s.settings.files.openPath s.calls.toList path = .error fault) :
    s.fetchPath path =
      (({ s with calls := s.calls.push (.open path) } : Session).reportingFailure
        ("Failed to open input file " ++ s.file) fault).mapResult fun _ => none := by
  rw [fetchPath, h]

theorem fetchDescriptor_of_ok {descriptor : Int} {contents : Contents}
    (h : s.settings.files.readAll s.calls.toList descriptor = .ok contents) :
    s.fetchDescriptor descriptor =
      (.ok (some contents), { s with calls := s.calls.push (.read descriptor) }) := by
  rw [fetchDescriptor, h]

theorem fetchDescriptor_of_error {descriptor : Int}
    (h : s.settings.files.readAll s.calls.toList descriptor = .error fault) :
    s.fetchDescriptor descriptor =
      (({ s with calls := s.calls.push (.read descriptor) } : Session).reportingFailure
        ("Failed to read input file " ++ s.file) fault).mapResult fun _ => none := by
  rw [fetchDescriptor, h]

/-- The session that has closed the descriptor it opened. -/
def releaseDescriptor (s : Session) : Session :=
  s.releasingDescriptor.2

theorem release_eq (s : Session) : s.release = s.releaseScanner.releaseDescriptor := rfl

theorem releasingDescriptor_of_none (h : s.owned = none) :
    s.releasingDescriptor = (.ok (), s) := by
  rw [releasingDescriptor, h]

/-- Whatever the file system says, the descriptor counts as closed. -/
theorem exists_releasingDescriptor {descriptor : Int} (h : s.owned = some descriptor) :
    ∃ result records, s.releasingDescriptor =
      (result, { s with owned := none, calls := s.calls.push (.close descriptor), records }) := by
  rw [releasingDescriptor, h]
  dsimp only
  split
  · exact ⟨_, s.records, rfl⟩
  · rw [tellingFailure]
    split
    · exact ⟨_, _, rfl⟩
    · exact ⟨_, s.records, rfl⟩

/-- A session that lets go of its descriptor asks to close it, if it has one, and has none then. -/
theorem exists_releaseDescriptor (s : Session) : ∃ records,
    s.releaseDescriptor =
      { s with owned := none, calls := s.calls ++ s.owned.toList.map FileCall.close, records } := by
  rw [releaseDescriptor]
  cases howned : s.owned with
  | none =>
    have hcalls : s.calls ++ s.owned.toList.map FileCall.close = s.calls := by simp [howned]
    rw [releasingDescriptor_of_none howned, ← howned]
    refine ⟨s.records, ?_⟩
    rw [hcalls]
  | some descriptor =>
    obtain ⟨result, records, heq⟩ := exists_releasingDescriptor howned
    rw [heq]
    exact ⟨records, by simp⟩

/-- Letting go touches nothing but what is let go of, and what is written down about it. -/
theorem exists_release (s : Session) : ∃ scanners active owned calls records,
    s.release = { s with scanners, active, owned, calls, records } := by
  obtain ⟨records, heq⟩ := s.releaseScanner.exists_releaseDescriptor
  rw [release_eq, heq, releaseScanner]
  split <;> exact ⟨_, _, _, _, _, rfl⟩

/-! ## Whole sessions -/

/-- Whatever was thrown on the way, a session lets go in the end. -/
theorem complete_eq (s : Session) : s.complete = s.acquiringAndReading.2.release := by
  rw [complete, completing]
  rcases s.acquiringAndReading with ⟨outcome, t⟩
  dsimp only
  rw [release]
  rcases t.releasing with ⟨_ | _, u⟩ <;> rfl

theorem complete_of_acquired (h : s.acquiring = (.ok true, t)) : s.complete = t.read.release := by
  rw [complete_eq, acquiringAndReading, h]
  rfl

end Cqasm.Session
