import Cqasm.Proofs.Ownership

/-!
# What a session may leave behind

A session that lets go has closed every descriptor it ever opened, as often as it opened it, and
disposed of every scanner it ever made, provided that it never got hold of its input while it still
held on to something (`released_iff`). Otherwise the new descriptor takes the place of the one that
was to be closed, and the new scanner the place of the one that was to be disposed of. The session
never comes back to the old ones; only a driver that still knows the scanner may dispose of it.
-/

set_option autoImplicit false

namespace Cqasm

namespace Session

variable {s : Session} {scanner : Nat}

theorem displaced_eq_nil_iff : s.displaced = [] ↔ s.owned = none ∨ s.opening? = none := by
  rw [displaced]
  cases s.owned <;> cases s.opening? <;> simp

/-! ## Scanners -/

theorem scanners_releaseDescriptor (s : Session) : s.releaseDescriptor.scanners = s.scanners := by
  obtain ⟨_, heq⟩ := s.exists_releaseDescriptor
  rw [heq]

theorem size_release (s : Session) : s.release.scanners.size = s.scanners.size := by
  rw [release_eq, scanners_releaseDescriptor, releaseScanner]
  split
  · rfl
  · exact (s.driven_disposeOf _).size

theorem isDisposed_disposeOf (h : scanner < s.scanners.size) :
    (s.disposeOf scanner).IsDisposed scanner := by
  have hold : s.scanners[scanner]? = some s.scanners[scanner] := Array.getElem?_eq_getElem h
  refine ⟨{ s.scanners[scanner] with disposed := true }, ?_, rfl⟩
  rw [disposeOf, Array.getElem?_modify, if_pos rfl, hold]
  rfl

/-- A session that lets go disposes of the scanner in use. -/
theorem isDisposed_release (hactive : s.active = some scanner)
    (hscanner : scanner < s.scanners.size) : s.release.IsDisposed scanner := by
  have hdisposed : s.releaseScanner.IsDisposed scanner := by
    rw [releaseScanner, hactive]
    exact isDisposed_disposeOf hscanner
  exact s.releaseScanner.kept_releaseDescriptor.disposed hdisposed

/-- That another scanner has taken the place of one while it was in use. -/
def IsReplaced (s : Session) (operations : List Operation) (scanner : Nat) : Prop :=
  ∃ before, before ++ [.acquire] <+: operations ∧
    (s.after before).active = some scanner ∧ (s.after before).acquire.1 = true

theorem IsReplaced.concat {operations : List Operation} (h : s.IsReplaced operations scanner)
    (operation : Operation) : s.IsReplaced (operations ++ [operation]) scanner := by
  obtain ⟨before, hbefore, hactive, hacquire⟩ := h
  exact ⟨before, prefix_concat_acquire_iff.2 (.inl hbefore), hactive, hacquire⟩

/-- What getting hold of the input does to scanners: none is made, or one is made and put to use. -/
theorem scanners_acquire (s : Session) :
    s.acquire.2.scanners.size = s.scanners.size ∧ s.acquire.2.active = s.active ∨
      s.acquire.1 = true ∧ s.acquire.2.scanners.size = s.scanners.size + 1 ∧
        s.acquire.2.active = some s.scanners.size := by
  obtain ⟨messages, hacquire⟩ := s.exists_acquire
  have hreported := s.asked.driven_reportAll messages
  rcases hacquire with hacquire | ⟨text, hacquire⟩ <;> rw [hacquire]
  · exact .inl ⟨hreported.size, hreported.active⟩
  · refine .inr ⟨rfl, ?_, congrArg some hreported.size⟩
    rw [addScanner, Array.size_push, hreported.size]
    rfl

/-- A scanner has been disposed of, is in use or has been replaced. -/
theorem isDisposed_or_replaced (hs : s.scanners = #[]) (operations : List Operation)
    (hscanner : scanner < (s.after operations).scanners.size) :
    (s.after operations).IsDisposed scanner ∨ (s.after operations).active = some scanner ∨
      s.IsReplaced operations scanner := by
  induction operations using List.reverseRecOn with
  | nil =>
    rw [after, List.foldl_nil, hs] at hscanner
    cases hscanner
  | append_singleton operations operation ih =>
    let t := s.after operations
    have hkept : Kept t (t.carryOut operation).2 := t.kept_carryOut operation
    have hold (hlt : scanner < t.scanners.size) :
        (t.carryOut operation).2.IsDisposed scanner ∨ t.active = some scanner ∨
          s.IsReplaced (operations ++ [operation]) scanner :=
      (ih hlt).imp hkept.disposed (Or.imp_right (·.concat operation))
    rw [after_concat] at hscanner ⊢
    obtain rfl | rfl | hdriven := t.driven_carryOut operation
    · obtain ⟨hsize, hactive⟩ | ⟨hmade, hsize, hactive⟩ := t.scanners_acquire
      · exact (hold (hsize ▸ hscanner)).imp_right (Or.imp_left hactive.trans)
      · obtain rfl | hlt : scanner = t.scanners.size ∨ scanner < t.scanners.size := by
          have hbound : scanner < t.scanners.size + 1 := hsize ▸ hscanner
          omega
        · exact .inr (.inl hactive)
        · rcases hold hlt with hdisposed | huse | hreplaced
          · exact .inl hdisposed
          · exact .inr (.inr ⟨operations, List.prefix_rfl, huse, hmade⟩)
          · exact .inr (.inr hreplaced)
    · have hlt : scanner < t.scanners.size := t.size_release ▸ hscanner
      rcases hold hlt with hdisposed | huse | hreplaced
      · exact .inl hdisposed
      · exact .inl (isDisposed_release huse hlt)
      · exact .inr (.inr hreplaced)
    · exact (hold (hdriven.size ▸ hscanner)).imp_right (Or.imp_left hdriven.active.trans)

end Session

open Session

/-- A session that lets go has closed every descriptor as often as it opened it exactly if it never
opened one while it had another one to close. It has disposed of every scanner, apart from those
that were in use when another one was made.

Of scanners, it is not said that one of the latter is still there: the session does not come back to
it, but a driver that has kept it may dispose of it at any time later. A descriptor is known to the
session alone, so for descriptors nothing stands in the way of the converse. -/
theorem released_iff (input : Input) (settings : Settings) (script : Script)
    (operations : List Operation) :
    let start := Session.start input settings script
    let s := start.after (operations ++ [.release])
    ((∀ descriptor, s.closed.count descriptor = s.opened.count descriptor) ↔
        ∀ before, before ++ [.acquire] <+: operations →
          (start.after before).owned = none ∨ (start.after before).opening? = none) ∧
      ∀ scanner, scanner < s.scanners.size → s.IsDisposed scanner ∨
        ∃ before, before ++ [.acquire] <+: operations ∧
          (start.after before).active = some scanner ∧ (start.after before).acquire.1 = true := by
  intro start s
  have hs : s = (start.after operations).release := start.after_concat operations .release
  -- Descriptors are counted against those that were displaced; a scanner is followed by itself.
  constructor
  · obtain ⟨lost, hlost, hiff⟩ := exists_hasLost (s := start) .nil operations
    have hreleased : s.HasLost lost := hs ▸ hasLost_release hlost
    have howned : s.owned = none := hs ▸ owned_release _
    simp only [displaced_eq_nil_iff] at hiff
    rw [← hiff, List.eq_nil_iff_forall_not_mem]
    refine forall_congr' fun descriptor => ?_
    rw [count_opened hreleased, howned, Option.toList_none, List.nil_append,
      ← List.count_eq_zero]
    omega
  · intro scanner hscanner
    rcases isDisposed_or_replaced (s := start) rfl _ hscanner with hdisposed | huse | hreplaced
    · exact .inl hdisposed
    · have hactive : s.active = none := hs ▸ active_release _
      rw [hactive] at huse
      cases huse
    · obtain ⟨before, hbefore, hreplaced⟩ := hreplaced
      rcases prefix_concat_acquire_iff.1 hbefore with hbefore | ⟨-, hrelease⟩
      · exact .inr ⟨before, hbefore, hreplaced⟩
      · cases hrelease

/-- A path that can be opened any number of times, always under the same number. -/
def reopened : Session :=
  .start (.path "p")
    { logger := .silent
      limit := 9
      files :=
        { openPath := fun _ _ => .ok 3
          readAll := fun _ _ => .ok (.text "version 1.0")
          closeDescriptor := fun _ _ => .ok () } }
    .grammar

/-- Between two times of getting hold of the input, the session let go of it. -/
theorem released_iff_released_between :
    let s := reopened.after ([.acquire, .release, .acquire] ++ [.release])
    (s.opened = [3, 3] ∧ s.closed = [3, 3] ∧ ((reopened.after [.acquire, .release]).owned = none ∨
        (reopened.after [.acquire, .release]).opening? = none)) ∧
      0 < s.scanners.size ∧ (s.IsDisposed 0 ∨
        ∃ before, before ++ [.acquire] <+: [.acquire, .release, .acquire] ∧
          (reopened.after before).active = some 0 ∧ (reopened.after before).acquire.1 = true) := by
  intro s
  obtain ⟨hiff, hscanners⟩ := released_iff reopened.input reopened.settings reopened.script
    [.acquire, .release, .acquire]
  have hopened : s.opened = [3, 3] := by decide +kernel
  have hclosed : s.closed = [3, 3] := by decide +kernel
  have hcount (descriptor : Int) : s.closed.count descriptor = s.opened.count descriptor := by
    rw [hopened, hclosed]
  have hsize : 0 < s.scanners.size := by decide +kernel
  exact ⟨⟨hopened, hclosed, hiff.1 hcount _ List.prefix_rfl⟩, hsize, hscanners 0 hsize⟩

/-- Without that, one of two descriptors is never closed, and one of two scanners never disposed
of. -/
theorem acquired_twice :
    let s := reopened.after ([.acquire, .acquire] ++ [.release])
    (s.opened = [3, 3] ∧ s.closed = [3] ∧
        ¬∀ descriptor, s.closed.count descriptor = s.opened.count descriptor) ∧
      (¬∀ scanner, scanner < s.scanners.size → s.IsDisposed scanner) := by
  intro s
  have hopened : s.opened = [3, 3] := by decide +kernel
  have hclosed : s.closed = [3] := by decide +kernel
  refine ⟨⟨hopened, hclosed, fun h => ?_⟩, fun h => ?_⟩
  · have hthree := h 3
    rw [hopened, hclosed] at hthree
    contradiction
  · have hfirst : s.IsDisposed 0 := h 0 (by decide +kernel)
    revert hfirst
    decide +kernel

end Cqasm
