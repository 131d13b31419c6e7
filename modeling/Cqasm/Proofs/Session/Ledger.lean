import Mathlib.Data.List.Basic
import Cqasm.Session.FileSystem

/-!
# Ledgers

What a row of requests to a file system amounts to: what was opened, and what was closed. `Ledger`
says how requests may follow each other for whoever keeps in mind a single descriptor, namely the
one that was opened last and has not been closed; only that one may be closed. Another one that is
opened before then takes its place, and the descriptor is lost.

So every descriptor that was opened has been closed, is kept in mind or is lost (`Ledger.perm`), and
no matter what is lost, whatever is closed was opened before, and not closed in between
(`Ledger.exists_matching`).
-/

set_option autoImplicit false

namespace Cqasm

namespace FileCall

/-- The descriptor that a request is to close. -/
def closing? : FileCall → Option Int
  | close descriptor => some descriptor
  | _ => none

/-- The descriptor that the request at a place is to close. -/
def closedAt (calls : List FileCall) (place : Nat) : Option Int :=
  calls[place]?.bind closing?

/-- Everything that is to be closed, in order. -/
def closed (calls : List FileCall) : List Int :=
  calls.filterMap closing?

end FileCall

namespace FileSystem

/-- The descriptor that a request opens. -/
def opening? (files : FileSystem) (before : List FileCall) : FileCall → Option Int
  | .open path => (files.openPath before path).toOption
  | _ => none

/-- The descriptor that the request at a place opens. -/
def openedAt (files : FileSystem) (calls : List FileCall) (place : Nat) : Option Int :=
  calls[place]?.bind (files.opening? (calls.take place))

/-- Everything that is opened, in order. -/
def opened (files : FileSystem) (calls : List FileCall) : List Int :=
  (List.range calls.length).filterMap (files.openedAt calls)

end FileSystem

open FileCall

variable {files : FileSystem} {calls : List FileCall} {call : FileCall} {place : Nat}
  {descriptor : Int}

/-! ## One more request -/

theorem FileCall.closedAt_concat_iff :
    closedAt (calls ++ [call]) place = some descriptor ↔
      closedAt calls place = some descriptor ∨
        place = calls.length ∧ call.closing? = some descriptor := by
  rcases Nat.lt_trichotomy place calls.length with h | rfl | h
  · simp [closedAt, List.getElem?_append_left h, Nat.ne_of_lt h]
  · simp [closedAt]
  · have hnot : ¬ place < (calls ++ [call]).length := by
      rw [List.length_append, List.length_singleton]
      omega
    simp [closedAt, List.getElem?_eq_none (Nat.le_of_not_lt hnot),
      List.getElem?_eq_none (Nat.le_of_lt h), Nat.ne_of_gt h]

theorem FileCall.closedAt_of_concat (hcall : call.closing? = none)
    (h : closedAt (calls ++ [call]) place = some descriptor) :
    closedAt calls place = some descriptor := by
  simpa [hcall] using closedAt_concat_iff.1 h

theorem FileCall.closed_concat :
    closed (calls ++ [call]) = closed calls ++ call.closing?.toList := by
  rw [closed, List.filterMap_append]
  cases hclosing : call.closing? <;> simp [closed, hclosing]

theorem FileCall.lt_of_closedAt (h : closedAt calls place = some descriptor) :
    place < calls.length := by
  obtain ⟨call, hcall, -⟩ := Option.bind_eq_some_iff.1 h
  exact (List.getElem?_eq_some_iff.1 hcall).1

namespace FileSystem

theorem openedAt_concat_of_lt (h : place < calls.length) :
    files.openedAt (calls ++ [call]) place = files.openedAt calls place := by
  rw [openedAt, openedAt, List.getElem?_append_left h,
    List.take_append_of_le_length (Nat.le_of_lt h)]

theorem openedAt_concat_length :
    files.openedAt (calls ++ [call]) calls.length = files.opening? calls call := by
  simp [openedAt]

theorem lt_of_openedAt (h : files.openedAt calls place = some descriptor) :
    place < calls.length := by
  obtain ⟨call, hcall, -⟩ := Option.bind_eq_some_iff.1 h
  exact (List.getElem?_eq_some_iff.1 hcall).1

theorem openedAt_concat (h : files.openedAt calls place = some descriptor) :
    files.openedAt (calls ++ [call]) place = some descriptor := by
  rw [openedAt_concat_of_lt (lt_of_openedAt h), h]

theorem opened_concat :
    files.opened (calls ++ [call]) = files.opened calls ++ (files.opening? calls call).toList := by
  have hbefore : (List.range calls.length).filterMap (files.openedAt (calls ++ [call])) =
      files.opened calls :=
    List.filterMap_congr fun place hplace => openedAt_concat_of_lt (List.mem_range.1 hplace)
  rw [opened, List.length_append, List.length_singleton, List.range_succ, List.filterMap_append,
    hbefore]
  simp only [List.filterMap_cons, List.filterMap_nil, openedAt_concat_length]
  cases files.opening? calls call <;> rfl

end FileSystem

/-! ## One descriptor at a time -/

/-- Requests to a file system that were made with one descriptor in mind: the one that is to be
closed now, and those that were lost, the last one in front. -/
inductive Ledger (files : FileSystem) : List FileCall → Option Int → List Int → Prop
  | nil : Ledger files [] none []
  | read {calls : List FileCall} {owned : Option Int} {lost : List Int} (descriptor : Int) :
    Ledger files calls owned lost → Ledger files (calls ++ [.read descriptor]) owned lost
  | refused {calls : List FileCall} {owned : Option Int} {lost : List Int} {path : String} :
    files.opening? calls (.open path) = none → Ledger files calls owned lost →
      Ledger files (calls ++ [.open path]) owned lost
  | opened {calls : List FileCall} {owned : Option Int} {lost : List Int} {path : String}
    {descriptor : Int} :
    files.opening? calls (.open path) = some descriptor → Ledger files calls owned lost →
      Ledger files (calls ++ [.open path]) (some descriptor) (owned.toList ++ lost)
  | closed {calls : List FileCall} {descriptor : Int} {lost : List Int} :
    Ledger files calls (some descriptor) lost →
      Ledger files (calls ++ [.close descriptor]) none lost

/-- Every request to close is given a request of its own that came before it and opened the same
descriptor. -/
structure IsMatching (files : FileSystem) (calls : List FileCall) (partner : Nat → Nat) : Prop where
  earlier {place : Nat} {descriptor : Int} : closedAt calls place = some descriptor →
    partner place < place ∧ files.openedAt calls (partner place) = some descriptor
  injective {place other : Nat} {descriptor descriptor' : Int} :
    closedAt calls place = some descriptor → closedAt calls other = some descriptor' →
      partner place = partner other → place = other

/-- That no request to close has been given the one at a place. -/
def IsFree (calls : List FileCall) (partner : Nat → Nat) (origin : Nat) : Prop :=
  ∀ ⦃place descriptor⦄, closedAt calls place = some descriptor → partner place ≠ origin

variable {partner : Nat → Nat} {origin : Nat}

theorem IsFree.concat (h : IsFree calls partner origin) (hcall : call.closing? = none) :
    IsFree (calls ++ [call]) partner origin :=
  fun _ _ hplace => h (closedAt_of_concat hcall hplace)

namespace IsMatching

/-- Whatever is opened next is free. -/
theorem isFree_length (h : IsMatching files calls partner) :
    IsFree calls partner calls.length :=
  fun _ _ hplace => Nat.ne_of_lt (Nat.lt_trans (h.earlier hplace).1 (lt_of_closedAt hplace))

theorem concat (h : IsMatching files calls partner) (hcall : call.closing? = none) :
    IsMatching files (calls ++ [call]) partner := by
  constructor
  · intro place descriptor hplace
    obtain ⟨hlt, hopened⟩ := h.earlier (closedAt_of_concat hcall hplace)
    exact ⟨hlt, FileSystem.openedAt_concat hopened⟩
  · intro place other _ _ hplace hother
    exact h.injective (closedAt_of_concat hcall hplace) (closedAt_of_concat hcall hother)

/-- A descriptor can be closed if the request that opened it is free. -/
theorem concat_close (h : IsMatching files calls partner)
    (horigin : files.openedAt calls origin = some descriptor)
    (hfree : IsFree calls partner origin) :
    IsMatching files (calls ++ [.close descriptor])
      (Function.update partner calls.length origin) := by
  have hold {place : Nat} {descriptor : Int} (hplace : closedAt calls place = some descriptor) :
      Function.update partner calls.length origin place = partner place :=
    Function.update_of_ne (Nat.ne_of_lt (lt_of_closedAt hplace)) ..
  have hnew : Function.update partner calls.length origin calls.length = origin :=
    Function.update_self ..
  constructor
  · intro place descriptor' hplace
    rcases closedAt_concat_iff.1 hplace with hplace | ⟨rfl, hclosing⟩
    · obtain ⟨hlt, hopened⟩ := h.earlier hplace
      rw [hold hplace]
      exact ⟨hlt, FileSystem.openedAt_concat hopened⟩
    · obtain rfl : descriptor = descriptor' := Option.some.inj hclosing
      rw [hnew]
      exact ⟨FileSystem.lt_of_openedAt horigin, FileSystem.openedAt_concat horigin⟩
  -- an old close and the new one have different partners, as the origin was free
  · intro place other _ _ hplace hother heq
    rcases closedAt_concat_iff.1 hplace with hplace | ⟨rfl, -⟩ <;>
      rcases closedAt_concat_iff.1 hother with hother | ⟨rfl, -⟩
    · rw [hold hplace, hold hother] at heq
      exact h.injective hplace hother heq
    · rw [hold hplace, hnew] at heq
      exact absurd heq (hfree hplace)
    · rw [hold hother, hnew] at heq
      exact absurd heq.symm (hfree hother)
    · rfl

end IsMatching

namespace Ledger

variable {owned : Option Int} {lost : List Int}

/-- Whatever was closed was opened before, and not closed in between. -/
theorem exists_matching (h : Ledger files calls owned lost) :
    ∃ partner, IsMatching files calls partner ∧ ∀ descriptor, owned = some descriptor →
      ∃ origin, files.openedAt calls origin = some descriptor ∧ IsFree calls partner origin := by
  -- The request that opened the descriptor in mind stays free until it is given away.
  induction h with
  | nil => exact ⟨id, ⟨(nomatch ·), (nomatch ·)⟩, fun _ howned => nomatch howned⟩
  | read _ _ ih | refused _ _ ih =>
    obtain ⟨partner, hmatching, horigin⟩ := ih
    refine ⟨partner, hmatching.concat rfl, fun descriptor howned => ?_⟩
    obtain ⟨origin, hopened, hfree⟩ := horigin descriptor howned
    exact ⟨origin, FileSystem.openedAt_concat hopened, hfree.concat rfl⟩
  | @opened calls _ _ _ _ hanswer _ ih =>
    obtain ⟨partner, hmatching, -⟩ := ih
    refine ⟨partner, hmatching.concat rfl, fun descriptor howned => ?_⟩
    exact ⟨calls.length, by rw [FileSystem.openedAt_concat_length, hanswer, howned],
      hmatching.isFree_length.concat rfl⟩
  | closed _ ih =>
    obtain ⟨partner, hmatching, horigin⟩ := ih
    obtain ⟨origin, hopened, hfree⟩ := horigin _ rfl
    exact ⟨_, hmatching.concat_close hopened hfree, fun _ howned => nomatch howned⟩

/-- Every descriptor that was opened has been closed, is still in mind or is lost. -/
theorem perm (h : Ledger files calls owned lost) :
    (files.opened calls).Perm (FileCall.closed calls ++ (owned.toList ++ lost)) := by
  induction h with
  | nil => exact .refl _
  | read _ _ ih =>
    rw [FileSystem.opened_concat, closed_concat]
    simpa [FileSystem.opening?, closing?] using ih
  | refused hanswer _ ih =>
    rw [FileSystem.opened_concat, closed_concat, hanswer]
    simpa [closing?] using ih
  | @opened calls owned lost path descriptor hanswer _ ih =>
    rw [FileSystem.opened_concat, closed_concat, hanswer]
    have hrest := List.perm_append_singleton descriptor (owned.toList ++ lost)
    refine (ih.append_right [descriptor]).trans ?_
    rw [List.append_assoc]
    simpa [closing?] using hrest.append_left (FileCall.closed calls)
  | closed _ ih =>
    rw [FileSystem.opened_concat, closed_concat]
    simpa [FileSystem.opening?, closing?] using ih

end Ledger

end Cqasm
