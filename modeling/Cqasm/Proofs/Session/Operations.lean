import Cqasm.Proofs.Session.Text
import Cqasm.Session.Operation

/-!
# What operations do to a session

Whatever a driver does to a session, it neither makes a scanner nor brings one back that has been
disposed of, it does not touch the file system, and all it does to the error log is to report
messages (`Session.Driven`). One command is looked at after the other (`Session.driven_perform`),
and a driver is a tree of commands (`Session.driven_run`).

Getting hold of the input and letting go of it do more than that. All that the former can come to is
said once (`Session.exists_acquiring`). What is left is what every operation keeps (`Session.Kept`):
a scanner that has been disposed of stays so, and messages are only ever added. None of this depends
on whether the operation returns or throws.
-/

set_option autoImplicit false

namespace Cqasm.Session

/-- That a scanner was made and has been disposed of. -/
def IsDisposed (s : Session) (scanner : Nat) : Prop :=
  ∃ old, s.scanners[scanner]? = some old ∧ old.disposed = true

instance (s : Session) (scanner : Nat) : Decidable (s.IsDisposed scanner) :=
  decidable_of_iff (s.scanners[scanner]?.map Scanner.disposed = some true)
    Option.map_eq_some_iff

/-- Two sessions have dealt with the file system in the same way, and are to go on in the same
way. -/
structure SameFiles (s t : Session) : Prop where
  input : t.input = s.input
  settings : t.settings = s.settings
  calls : t.calls = s.calls
  owned : t.owned = s.owned

/-- What every operation keeps. -/
structure Kept (s t : Session) : Prop where
  input : t.input = s.input
  settings : t.settings = s.settings
  script : t.script = s.script
  disposed : ∀ {scanner : Nat}, s.IsDisposed scanner → t.IsDisposed scanner
  reported : ∃ messages : List String, t.errors = messages.foldl ErrorLog.add s.errors

/-- What every driver keeps. -/
structure Driven (s t : Session) : Prop extends Kept s t, SameFiles s t where
  active : t.active = s.active
  size : t.scanners.size = s.scanners.size

variable {s t u : Session} {scanner : Nat}

namespace SameFiles

theorem refl (s : Session) : SameFiles s s := ⟨rfl, rfl, rfl, rfl⟩

theorem trans (h : SameFiles s t) (h' : SameFiles t u) : SameFiles s u where
  input := h'.input.trans h.input
  settings := h'.settings.trans h.settings
  calls := h'.calls.trans h.calls
  owned := h'.owned.trans h.owned

end SameFiles

namespace Kept

theorem refl (s : Session) : Kept s s := ⟨rfl, rfl, rfl, id, [], rfl⟩

theorem trans (h : Kept s t) (h' : Kept t u) : Kept s u where
  input := h'.input.trans h.input
  settings := h'.settings.trans h.settings
  script := h'.script.trans h.script
  disposed hdisposed := h'.disposed (h.disposed hdisposed)
  reported := by
    obtain ⟨messages, hmessages⟩ := h.reported
    obtain ⟨messages', hmessages'⟩ := h'.reported
    exact ⟨messages ++ messages', by rw [hmessages', hmessages, List.foldl_append]⟩

/-- What is in use, and what was asked of the file system, is not among it. -/
theorem adjust (h : Kept s t) (active : Option Nat) (owned : Option Int) (calls : Array FileCall)
    (records : Array LogRecord) : Kept s { t with active, owned, calls, records } :=
  ⟨h.input, h.settings, h.script, h.disposed, h.reported⟩

end Kept

namespace Driven

theorem refl (s : Session) : Driven s s :=
  { Kept.refl s, SameFiles.refl s with active := rfl, size := rfl }

theorem trans (h : Driven s t) (h' : Driven t u) : Driven s u :=
  { h.toKept.trans h'.toKept, h.toSameFiles.trans h'.toSameFiles with
    active := h'.active.trans h.active
    size := h'.size.trans h.size }

/-- The tree and all that is only written down are not among it. -/
theorem adjust (h : Driven s t) (root : Option Root) (records : Array LogRecord)
    (observations : Array Observation) (handed : Option Nat) :
    Driven s { t with root, records, observations, handed } :=
  { h.toKept, h.toSameFiles with active := h.active, size := h.size }

end Driven

/-! ## Scanners and messages -/

theorem scanners_report (s : Session) (message : String) :
    (s.report message).scanners = s.scanners := by
  rw [report, reporting]
  split <;> rfl

theorem active_report (s : Session) (message : String) : (s.report message).active = s.active := by
  rw [report, reporting]
  split <;> rfl

theorem script_report (s : Session) (message : String) : (s.report message).script = s.script := by
  rw [report, reporting]
  split <;> rfl

theorem sameFiles_report (s : Session) (message : String) : SameFiles s (s.report message) := by
  rw [report, reporting]
  split <;> exact ⟨rfl, rfl, rfl, rfl⟩

/-- Messages are what a driver may add. -/
theorem driven_report (s : Session) (message : String) : Driven s (s.report message) :=
  { s.sameFiles_report message with
    script := s.script_report message
    disposed := fun ⟨old, hold⟩ => ⟨old, by rwa [scanners_report]⟩
    reported := ⟨[message], s.errors_report message⟩
    active := s.active_report message
    size := congrArg Array.size (s.scanners_report message) }

theorem driven_reportAll (s : Session) (messages : List String) :
    Driven s (s.reportAll messages) := by
  induction messages generalizing s with
  | nil => exact .refl s
  | cons message messages ih => exact (s.driven_report message).trans (ih (s.report message))

/-- Also where there is no reason to be had, nothing but messages are added. -/
theorem driven_reportingFailure (s : Session) (failure : String) (fault : Fault) :
    Driven s (s.reportingFailure failure fault).2 := by
  obtain ⟨result, messages, heq⟩ := s.exists_reportingFailure failure fault
  rw [heq]
  exact s.driven_reportAll messages

/-- A scanner may be changed in place, as long as it is not put back into use. -/
theorem driven_modify (s : Session) (scanner : Nat) {change : Scanner → Scanner}
    (hchange : ∀ old, old.disposed → (change old).disposed) :
    Driven s { s with scanners := s.scanners.modify scanner change } :=
  { Driven.refl s with
    disposed := fun {k} ⟨old, hold, hdisposed⟩ => by
      by_cases hk : scanner = k
      · exact ⟨change old, by simp [Array.getElem?_modify, hk, hold], hchange old hdisposed⟩
      · exact ⟨old, by simp [Array.getElem?_modify, hk, hold], hdisposed⟩
    size := Array.size_modify }

theorem driven_setStream (s : Session) (scanner : Nat) (stream : TokenStream) :
    Driven s (s.setStream scanner stream) :=
  s.driven_modify scanner fun _ => id

/-- Disposing of a scanner does not make one, and brings none back. -/
theorem driven_disposeOf (s : Session) (scanner : Nat) : Driven s (s.disposeOf scanner) :=
  s.driven_modify scanner fun _ _ => rfl

/-! ## Commands -/

/-- Reading a token moves the scanner on and reports what was wrong in front of the token. -/
theorem driven_readToken (s : Session) (scanner : Nat) : Driven s (s.readToken scanner).2 := by
  rw [readToken]
  split
  · exact .refl s
  · exact (s.driven_setStream scanner _).trans (driven_reportAll ..)

/-- Nothing can be read from a scanner that has been disposed of. -/
theorem readToken_of_isDisposed (h : s.IsDisposed scanner) :
    s.readToken scanner = (.error .scannerDisposed, s) := by
  obtain ⟨⟨stream, disposed⟩, hold, rfl⟩ := h
  have hstream : s.stream? scanner = none := by rw [stream?, hold]
  rw [readToken, hstream]

/-- Reading with the grammar takes what is left of a stream and sets the tree. -/
theorem driven_readProgram (s : Session) (scanner : Nat) (limit : Option Nat) :
    Driven s (s.readProgram scanner limit).2 := by
  rw [readProgram]
  split
  · exact .refl s
  · dsimp only
    split
    · exact (s.driven_setStream scanner _).trans (driven_reportAll ..)
    · exact ((s.driven_setStream scanner _).trans (driven_reportAll ..)).adjust ..

/-- What one command keeps. -/
theorem driven_perform (s : Session) (scanner : Nat) (command : Command) :
    Driven s (s.perform scanner command).2 := by
  cases command with
  | report message => exact s.driven_report message
  | next =>
    have hread := s.driven_readToken scanner
    rw [perform]
    generalize s.readToken scanner = read at hread ⊢
    rcases read with ⟨fault | token, t⟩
    · exact hread
    · exact hread.adjust ..
  | dispose => exact s.driven_disposeOf scanner
  | grammar => exact s.driven_readProgram scanner none
  | grammarLimited limit => exact s.driven_readProgram scanner (some limit)
  | throw => exact .refl s
  | aborted | root | noRoot | keep => exact (Driven.refl s).adjust ..

/-- What a whole driver keeps. -/
theorem driven_run (s : Session) (driver : Driver) : Driven s (driver.run s).2 := by
  induction driver generalizing s with
  | stop thrown => exact .refl s
  | perform scanner command next ih =>
    exact (s.driven_perform scanner command).trans (ih _ _ _)

/-! ## Operations -/

/-- A tree is looked at and at most complained of. -/
theorem driven_checkTree (s : Session) : Driven s s.checkTree := by
  rw [checkTree]
  by_cases h : s.errors.messages.isEmpty && !s.isComplete
  · rw [checkingTree_of_incomplete h]
    exact ((Driven.refl s).adjust ..).trans (driven_report (s.record ..) _)
  · rw [checkingTree, if_neg h]
    exact .refl s

/-- What a reading keeps, no matter how it ends. -/
theorem driven_readBy (s : Session) (driver : Nat → Driver) : Driven s (s.readBy driver) := by
  rw [readBy]
  cases hactive : s.active with
  | none =>
    rw [readingBy_of_none hactive]
    exact s.driven_report _
  | some scanner =>
    have hrun : Driven s ((driver scanner).run s.recordStart).2 :=
      ((Driven.refl s).adjust ..).trans (s.recordStart.driven_run (driver scanner))
    rcases heq : (driver scanner).run s.recordStart with ⟨_ | fault, t⟩ <;> rw [heq] at hrun
    · rw [readingBy_of_returned hactive heq]
      exact (hrun.trans (driven_checkTree t)).adjust ..
    · rw [readingBy_of_thrown hactive heq]
      exact hrun.trans (driven_reportingFailure ..)

/-! ## Getting hold of the input -/

/-- The descriptor that the session opens when it gets hold of its input, if it opens one. -/
def opening? (s : Session) : Option Int :=
  match s.input with
  | .path path => (s.settings.files.openPath s.calls.toList path).toOption
  | _ => none

/-- What the session asks of the file system when it gets hold of its input. -/
def requests (s : Session) : List FileCall :=
  match s.input with
  | .string .. => []
  | .descriptor descriptor _ => [.read descriptor]
  | .path path => .open path :: s.opening?.toList.map .read

/-- A session that has asked for its input, whatever was answered. A descriptor that it opened is
its own from then on. -/
def asked (s : Session) : Session :=
  { s with calls := s.calls ++ s.requests, owned := s.opening?.or s.owned }

/-- Reading a descriptor is one request, and what may be reported of it is that it failed. -/
theorem exists_fetchDescriptor (s : Session) (descriptor : Int) :
    ∃ result messages, s.fetchDescriptor descriptor =
      (result,
        ({ s with calls := s.calls.push (.read descriptor) } : Session).reportAll messages) := by
  cases hanswer : s.settings.files.readAll s.calls.toList descriptor with
  | ok contents => exact ⟨_, [], fetchDescriptor_of_ok hanswer⟩
  | error fault =>
    obtain ⟨result, messages, hreport⟩ := exists_reportingFailure
      { s with calls := s.calls.push (.read descriptor) }
      ("Failed to read input file " ++ s.file) fault
    rw [fetchDescriptor_of_error hanswer, hreport]
    exact ⟨_, messages, rfl⟩

/-- Getting at the text comes to the same requests whether it returns a text, nothing, or throws. -/
theorem exists_fetch (s : Session) :
    ∃ result messages, s.fetch = (result, s.asked.reportAll messages) := by
  rw [fetch]
  -- A string asks for nothing, a descriptor for one read, and a path for an opening first.
  split
  · next text _ hinput =>
    have hrequests : s.requests = [] := by rw [requests, hinput]
    have hopening : s.opening? = none := by rw [opening?, hinput]
    have hasked : s.asked = s := by simp [asked, hrequests, hopening]
    exact ⟨.ok (some (.text text)), [], by rw [hasked]; rfl⟩
  · next descriptor _ hinput =>
    have hasked : s.asked = { s with calls := s.calls.push (.read descriptor) } := by
      simp [asked, requests, opening?, hinput]
    rw [hasked]
    exact s.exists_fetchDescriptor descriptor
  · next path hinput =>
    cases hanswer : s.settings.files.openPath s.calls.toList path with
    | error fault =>
      have hasked : s.asked = { s with calls := s.calls.push (.open path) } := by
        simp [asked, requests, opening?, hinput, hanswer, Except.toOption]
      obtain ⟨result, messages, hreport⟩ := exists_reportingFailure
        { s with calls := s.calls.push (.open path) }
        ("Failed to open input file " ++ s.file) fault
      rw [hasked, fetchPath_of_error hanswer, hreport]
      exact ⟨_, messages, rfl⟩
    | ok descriptor =>
      have hasked : s.asked =
          { s with
            calls := (s.calls.push (.open path)).push (.read descriptor)
            owned := some descriptor } := by
        simp [asked, requests, opening?, hinput, hanswer, Except.toOption]
      rw [hasked, fetchPath_of_ok hanswer]
      exact exists_fetchDescriptor _ descriptor

/-- A session that gets hold of its input has asked for it, and then it has made a scanner, or else
reported why not, unless there was no reason to be had. -/
theorem exists_acquiring (s : Session) :
    ∃ messages, (∃ result, result ≠ .ok true ∧ s.acquiring = (result, s.asked.reportAll messages)) ∨
      ∃ text, s.acquiring = (.ok true, (s.asked.reportAll messages).addScanner text) := by
  obtain ⟨result, messages, hfetch⟩ := s.exists_fetch
  rw [acquiring, hfetch]
  rcases result with thrown | _ | text | fault
  · exact ⟨messages, .inl ⟨.error thrown, by simp, rfl⟩⟩
  · exact ⟨messages, .inl ⟨.ok false, by simp, rfl⟩⟩
  · exact ⟨messages, .inr ⟨text, rfl⟩⟩
  · obtain ⟨result, more, hreport⟩ := (s.asked.reportAll messages).exists_reportingFailure
      ("Failed to construct scanner for " ++ (s.asked.reportAll messages).file) fault
    have hboth :
        s.asked.reportAll (messages ++ more) = (s.asked.reportAll messages).reportAll more :=
      List.foldl_append
    rw [Attempt.andThen_ok, scannerFor, hreport, ← hboth]
    refine ⟨messages ++ more, .inl ⟨_, ?_, rfl⟩⟩
    cases result <;> simp [Except.map]

/-- The same of the session alone, and of whether it has made a scanner. -/
theorem exists_acquire (s : Session) :
    ∃ messages, s.acquire = (false, s.asked.reportAll messages) ∨
      ∃ text, s.acquire = (true, (s.asked.reportAll messages).addScanner text) := by
  obtain ⟨messages, ⟨result, hresult, hacquiring⟩ | ⟨text, hacquiring⟩⟩ := s.exists_acquiring
  · refine ⟨messages, .inl ?_⟩
    rw [acquire, hacquiring]
    rcases result with _ | _ | _
    · rfl
    · rfl
    · contradiction
  · exact ⟨messages, .inr ⟨text, by rw [acquire, hacquiring]⟩⟩

/-- To the file system, making a scanner makes no difference. -/
theorem sameFiles_acquire (s : Session) : SameFiles s.asked s.acquire.2 := by
  obtain ⟨messages, hacquire⟩ := s.exists_acquire
  have hreported := (s.asked.driven_reportAll messages).toSameFiles
  rcases hacquire with hacquire | ⟨text, hacquire⟩ <;> rw [hacquire]
  · exact hreported
  · exact ⟨hreported.input, hreported.settings, hreported.calls, hreported.owned⟩

/-- A new scanner comes behind all others, so those that were disposed of keep their places. -/
theorem kept_acquire (s : Session) : Kept s s.acquire.2 := by
  obtain ⟨messages, hacquire⟩ := s.exists_acquire
  have hreported : Kept s (s.asked.reportAll messages) :=
    ((Kept.refl s).adjust ..).trans (s.asked.driven_reportAll messages).toKept
  rcases hacquire with hacquire | ⟨text, hacquire⟩
  · rw [hacquire]
    exact hreported
  · rw [hacquire]
    refine ⟨hreported.input, hreported.settings, hreported.script, fun hdisposed => ?_,
      hreported.reported⟩
    obtain ⟨old, hold, hold'⟩ := hreported.disposed hdisposed
    obtain ⟨hlt, -⟩ := Array.getElem?_eq_some_iff.1 hold
    exact ⟨old, by rw [addScanner, Array.getElem?_push_lt hlt, ← hold, Array.getElem?_eq_getElem],
      hold'⟩

/-- Letting go of a scanner disposes of it. -/
theorem kept_releaseScanner (s : Session) : Kept s s.releaseScanner := by
  rw [releaseScanner]
  split
  · exact .refl s
  · exact (s.driven_disposeOf _).toKept.adjust ..

theorem kept_releaseDescriptor (s : Session) : Kept s s.releaseDescriptor := by
  obtain ⟨records, heq⟩ := s.exists_releaseDescriptor
  rw [heq]
  exact (Kept.refl s).adjust ..

/-- Letting go reports nothing. -/
theorem kept_release (s : Session) : Kept s s.release :=
  s.kept_releaseScanner.trans s.releaseScanner.kept_releaseDescriptor

theorem releaseDescriptor_of_none (h : s.owned = none) : s.releaseDescriptor = s :=
  congrArg Prod.snd (releasingDescriptor_of_none h)

theorem releaseScanner_of_none (h : s.active = none) : s.releaseScanner = s := by
  rw [releaseScanner, h]

/-- Having let go, a session has no scanner in use. -/
theorem active_release (s : Session) : s.release.active = none := by
  have hactive : s.releaseScanner.active = none := by
    rw [releaseScanner]
    split
    · assumption
    · rfl
  obtain ⟨records, heq⟩ := s.releaseScanner.exists_releaseDescriptor
  rw [release_eq, heq]
  exact hactive

/-- Nor has it a descriptor that it would have to close. -/
theorem owned_release (s : Session) : s.release.owned = none := by
  obtain ⟨records, heq⟩ := s.releaseScanner.exists_releaseDescriptor
  rw [release_eq, heq]

theorem sameFiles_releaseScanner (s : Session) : SameFiles s s.releaseScanner := by
  rw [releaseScanner]
  split <;> exact ⟨rfl, rfl, rfl, rfl⟩

/-- A session that lets go asks to close what it has opened itself, once. -/
theorem calls_release (s : Session) :
    s.release.calls.toList = s.calls.toList ++ s.owned.toList.map .close := by
  have hkept := s.sameFiles_releaseScanner
  obtain ⟨records, heq⟩ := s.releaseScanner.exists_releaseDescriptor
  rw [release_eq, heq, ← hkept.owned, ← hkept.calls]
  exact Array.toList_appendList

/-- Letting go once is enough. -/
theorem release_release (s : Session) : s.release.release = s.release := by
  rw [release_eq s.release, releaseScanner_of_none s.active_release,
    releaseDescriptor_of_none s.owned_release]

/-! ## Any operation -/

/-- An operation gets hold of the input, or lets go of it, or keeps all that a driver keeps. -/
theorem driven_carryOut (s : Session) (operation : Operation) :
    operation = .acquire ∨ operation = .release ∨ Driven s (s.carryOut operation).2 := by
  cases operation with
  | acquire => exact .inl rfl
  | release => exact .inr (.inl rfl)
  | read driver => exact .inr (.inr (s.driven_readBy driver))
  | report message => exact .inr (.inr (s.driven_report message))
  | finish => exact .inr (.inr (.refl s))
  | next scanner => exact .inr (.inr (s.driven_readToken scanner))

/-- Every operation keeps what it is to keep, in whichever of three ways it is harmless. -/
theorem kept_carryOut (s : Session) (operation : Operation) :
    Kept s (s.carryOut operation).2 := by
  obtain rfl | rfl | hdriven := s.driven_carryOut operation
  · exact s.kept_acquire
  · exact s.kept_release
  · exact hdriven.toKept

/-- A run keeps what each of its operations keeps. -/
theorem kept_after (s : Session) (operations : List Operation) :
    Kept s (s.after operations) := by
  induction operations generalizing s with
  | nil => exact .refl s
  | cons operation operations ih => exact (s.kept_carryOut operation).trans (ih _)

/-- A run may be cut between any two operations. -/
theorem after_append (s : Session) (operations later : List Operation) :
    s.after (operations ++ later) = (s.after operations).after later :=
  List.foldl_append

theorem after_concat (s : Session) (operations : List Operation) (operation : Operation) :
    s.after (operations ++ [operation]) = ((s.after operations).carryOut operation).2 :=
  s.after_append operations [operation]

end Cqasm.Session
