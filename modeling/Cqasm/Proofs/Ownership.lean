import Mathlib.Data.List.Induction
import Cqasm.Proofs.Session.Ledger
import Cqasm.Proofs.Session.Operations

/-!
# Nothing is closed that is not one's own

Whatever is done to a session, it keeps to the rules of a `Ledger` (`Session.exists_hasLost`): it
has one descriptor in mind, which is the last one it opened, and closes no other. So each of its
requests to close can be given an earlier request of its own that opened the same descriptor
(`descriptors_matched`), even if a file system uses its numbers again, or throws.
-/

set_option autoImplicit false

namespace Cqasm

namespace Session

variable {s : Session} {lost : List Int}

/-- That a session has kept to the rules of a ledger, and has lost these descriptors. -/
def HasLost (s : Session) (lost : List Int) : Prop :=
  Ledger s.settings.files s.calls.toList s.owned lost

/-- Every descriptor that the session has opened, in order. -/
def opened (s : Session) : List Int :=
  s.settings.files.opened s.calls.toList

/-- Every descriptor that the session has closed, in order. -/
def closed (s : Session) : List Int :=
  FileCall.closed s.calls.toList

/-- Every descriptor that was opened has been closed, is to be closed or is lost. -/
theorem count_opened (h : s.HasLost lost) (descriptor : Int) :
    s.opened.count descriptor =
      s.closed.count descriptor + (s.owned.toList ++ lost).count descriptor := by
  rw [opened, h.perm.count_eq, List.count_append]
  rfl

/-- The descriptor that is lost when the session gets hold of its input: the one in mind, if another
one is opened. -/
def displaced (s : Session) : List Int :=
  if s.opening?.isSome then s.owned.toList else []

theorem SameFiles.hasLost {t : Session} (h : SameFiles s t) (hs : s.HasLost lost) :
    t.HasLost lost := by
  rw [HasLost, h.settings, h.calls, h.owned]
  exact hs

theorem hasLost_asked (h : s.HasLost lost) : s.asked.HasLost (s.displaced ++ lost) := by
  have hasked : s.asked.HasLost (s.displaced ++ lost) ↔
      Ledger s.settings.files (s.calls.toList ++ s.requests) (s.opening?.or s.owned)
        (s.displaced ++ lost) := by
    rw [HasLost, asked, Array.toList_appendList]
  rw [hasked, displaced, requests]
  rw [HasLost] at h
  cases hinput : s.input with
  | string text file =>
    have hopening : s.opening? = none := by rw [opening?, hinput]
    simpa [hopening] using h
  | descriptor descriptor file =>
    have hopening : s.opening? = none := by rw [opening?, hinput]
    simpa [hopening] using h.read descriptor
  | path path =>
    have hanswer : s.settings.files.opening? s.calls.toList (.open path) = s.opening? := by
      rw [opening?, hinput]
      rfl
    cases hopening : s.opening? with
    | none => simpa using h.refused (hanswer.trans hopening)
    | some descriptor =>
      simpa using (h.opened (hanswer.trans hopening)).read descriptor

theorem hasLost_acquire (h : s.HasLost lost) : s.acquire.2.HasLost (s.displaced ++ lost) :=
  s.sameFiles_acquire.hasLost (hasLost_asked h)

theorem hasLost_release (h : s.HasLost lost) : s.release.HasLost lost := by
  rw [HasLost, s.kept_release.settings, s.calls_release, s.owned_release]
  rw [HasLost] at h
  cases howned : s.owned with
  | none =>
    rw [howned] at h
    simpa using h
  | some descriptor =>
    rw [howned] at h
    exact h.closed

theorem hasLost_carryOut (h : s.HasLost lost) {operation : Operation}
    (hoperation : operation ≠ .acquire) : (s.carryOut operation).2.HasLost lost := by
  obtain rfl | rfl | hdriven := s.driven_carryOut operation
  · contradiction
  · exact hasLost_release h
  · exact hdriven.toSameFiles.hasLost h

theorem prefix_concat_acquire_iff {before operations : List Operation} {operation : Operation} :
    before ++ [.acquire] <+: operations ++ [operation] ↔
      before ++ [.acquire] <+: operations ∨ before = operations ∧ operation = .acquire := by
  rw [List.prefix_concat_iff]
  constructor
  · rintro (heq | hbefore)
    · obtain ⟨rfl, hlast⟩ := List.append_inj' heq rfl
      exact .inr ⟨rfl, (List.singleton_inj.1 hlast).symm⟩
    · exact .inl hbefore
  · rintro (hbefore | ⟨rfl, rfl⟩)
    · exact .inr hbefore
    · exact .inl rfl

/-- Nothing is lost exactly if no descriptor takes the place of another. -/
theorem exists_hasLost (h : s.HasLost []) (operations : List Operation) :
    ∃ lost, (s.after operations).HasLost lost ∧
      (lost = [] ↔ ∀ before, before ++ [.acquire] <+: operations →
        (s.after before).displaced = []) := by
  induction operations using List.reverseRecOn with
  | nil => exact ⟨[], h, by simp⟩
  | append_singleton operations operation ih =>
    obtain ⟨lost, hlost, hiff⟩ := ih
    rw [after_concat]
    by_cases hoperation : operation = .acquire
    · subst hoperation
      refine ⟨_, hasLost_acquire hlost, ?_⟩
      simp [prefix_concat_acquire_iff, or_imp, forall_and, hiff, and_comm]
    · refine ⟨lost, hasLost_carryOut hlost hoperation, ?_⟩
      simp [prefix_concat_acquire_iff, hoperation, hiff]

/-! ## Inputs that are not opened -/

/-- That a session has nothing to close, and has never asked for anything but to read. -/
def OnlyReads (s : Session) : Prop :=
  s.owned = none ∧ ∀ call ∈ s.calls.toList, ∃ descriptor, call = .read descriptor

theorem SameFiles.onlyReads {t : Session} (hsame : SameFiles s t) (h : s.OnlyReads) :
    t.OnlyReads := by
  rw [OnlyReads, hsame.owned, hsame.calls]
  exact h

theorem onlyReads_acquire (hinput : ∀ path, s.input ≠ .path path) (h : s.OnlyReads) :
    s.acquire.2.OnlyReads := by
  have hasked : s.asked.OnlyReads := by
    obtain ⟨howned, hcalls⟩ := h
    cases heq : s.input with
    | path path => exact absurd heq (hinput path)
    | string | descriptor =>
      simpa [OnlyReads, asked, opening?, requests, heq, howned, or_imp, forall_and] using hcalls
  exact s.sameFiles_acquire.onlyReads hasked

theorem onlyReads_carryOut (hinput : ∀ path, s.input ≠ .path path) (h : s.OnlyReads)
    (operation : Operation) : (s.carryOut operation).2.OnlyReads := by
  obtain rfl | rfl | hdriven := s.driven_carryOut operation
  · exact onlyReads_acquire hinput h
  · constructor
    · exact s.owned_release
    · show ∀ call ∈ s.release.calls.toList, ∃ descriptor, call = .read descriptor
      rw [s.calls_release, h.1]
      simpa using h.2
  · exact hdriven.toSameFiles.onlyReads h

theorem onlyReads_after (hinput : ∀ path, s.input ≠ .path path) (h : s.OnlyReads)
    (operations : List Operation) : (s.after operations).OnlyReads := by
  induction operations generalizing s with
  | nil => exact h
  | cons operation operations ih =>
    exact ih (by rwa [(s.kept_carryOut operation).input]) (onlyReads_carryOut hinput h operation)

end Session

open Session

/-- Whatever was done to a session and whatever the file system answered: each request to close has
a request of its own before it that opened the same descriptor, so that none is closed more often
than it was opened, and if the input is no path, there are no requests but to read. A session that
lets go has no scanner in use, and letting go again changes nothing at all. From a scanner that has
been disposed of, nothing can be read, no matter which commands and operations follow. -/
theorem descriptors_matched (input : Input) (settings : Settings) (script : Script)
    (operations : List Operation) :
    let s := (Session.start input settings script).after operations
    (∃ partner, IsMatching settings.files s.calls.toList partner) ∧
      (∀ descriptor, s.closed.count descriptor ≤ s.opened.count descriptor) ∧
      ((∀ path, input ≠ .path path) →
        ∀ call ∈ s.calls.toList, ∃ descriptor, call = .read descriptor) ∧
      s.release.hasScanner = false ∧ s.release.release = s.release ∧
      ∀ (t : Session) scanner, t.IsDisposed scanner →
        t.readToken scanner = (.error .scannerDisposed, t) ∧
          (∀ driver, (Driver.run t driver).2.IsDisposed scanner) ∧
          ∀ later, (t.after later).IsDisposed scanner := by
  intro s
  have hsettings : s.settings = settings := (kept_after ..).settings
  obtain ⟨lost, hlost, -⟩ : ∃ lost, s.HasLost lost ∧ _ :=
    exists_hasLost (s := .start input settings script) .nil operations
  obtain ⟨partner, hmatching, -⟩ := hlost.exists_matching
  refine ⟨⟨partner, hsettings ▸ hmatching⟩, fun descriptor => ?_, fun hinput => ?_, ?_,
    s.release_release, fun t scanner hdisposed => ?_⟩
  · rw [count_opened hlost]
    exact Nat.le_add_right ..
  -- nothing was ever opened, and reading the input opens nothing
  · have hstart : (Session.start input settings script).OnlyReads :=
      ⟨rfl, fun _ hcall => nomatch hcall⟩
    exact (onlyReads_after hinput hstart operations).2
  · rw [hasScanner, s.active_release]
    rfl
  · exact ⟨readToken_of_isDisposed hdisposed,
      fun driver => (t.driven_run driver).disposed hdisposed,
      fun later => (t.kept_after later).disposed hdisposed⟩

/-- A path is read twice. The file system uses its only number again, although closing throws. -/
theorem descriptors_matched_same_number :
    let files : FileSystem :=
      { openPath := fun _ _ => .ok 3
        readAll := fun _ _ => .ok (.text "version 1.0")
        closeDescriptor := fun _ _ => .error (.error "EIO") }
    let s := (Session.start (.path "p") { logger := .silent, limit := 9, files } .grammar).after
      [.acquire, .release, .acquire, .release]
    s.calls.toList = [.open "p", .read 3, .close 3, .open "p", .read 3, .close 3] ∧
      (∃ partner : Nat → Nat, partner 2 < 2 ∧ partner 5 < 5 ∧ partner 2 ≠ partner 5) ∧
      s.IsDisposed 0 ∧ s.readToken 0 = (.error .scannerDisposed, s) := by
  intro files s
  obtain ⟨⟨partner, hmatching⟩, -, -, -, -, hdisposed⟩ := descriptors_matched (.path "p")
    { logger := .silent, limit := 9, files } .grammar [.acquire, .release, .acquire, .release]
  have hcalls : s.calls.toList =
      [.open "p", .read 3, .close 3, .open "p", .read 3, .close 3] := by decide +kernel
  have hfirst : FileCall.closedAt s.calls.toList 2 = some 3 := by decide +kernel
  have hlast : FileCall.closedAt s.calls.toList 5 = some 3 := by decide +kernel
  have hscanner : s.IsDisposed 0 := by decide +kernel
  refine ⟨hcalls, ⟨partner, ?_, ?_, fun heq => ?_⟩, hscanner, (hdisposed s 0 hscanner).1⟩
  · exact (hmatching.earlier hfirst).1
  · exact (hmatching.earlier hlast).1
  · exact absurd (hmatching.injective hfirst hlast heq) (by decide)

end Cqasm
