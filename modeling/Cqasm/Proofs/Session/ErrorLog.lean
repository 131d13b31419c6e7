import Mathlib.Data.List.Induction
import Cqasm.Session.ErrorLog

/-!
# What an error log keeps

As long as no more messages have come than its limit, a log keeps all of them in order
(`ErrorLog.foldl_add_of_le`), and it has given up exactly if more have come
(`ErrorLog.aborted_foldl_add_iff`). Then it has kept the first of them and put a notice behind them
(`ErrorLog.messages_foldl_add_of_lt`), and it has counted the rest (`ErrorLog.dropped_foldl_add`).

That a log has given up is kept twice, by its flag and by its count. The two always agree
(`ErrorLog.agrees_foldl_add`), because one step sets the flag and counts.
-/

set_option autoImplicit false

namespace Cqasm.ErrorLog

variable {log : ErrorLog} {messages : List String} {message : String} {limit : Nat}

/-! ## One more message -/

/-- A log that has given up only counts. -/
theorem add_of_aborted (h : log.aborted) :
    log.add message = { log with dropped := log.dropped + 1 } :=
  if_pos h

/-- A log that is full gives up, and puts a notice in place of the message. -/
theorem add_of_le (hlog : log.limitReached = false) (hlimit : log.limit ≤ log.messages.size) :
    log.add message =
      { log with
        messages := log.messages.push (notice log.limit)
        dropped := log.dropped + 1
        limitReached := true } := by
  rw [add, if_neg (by simp [hlog]), if_pos hlimit]

/-! ## Flag and count -/

/-- The flag of a log is up exactly if messages have been counted. -/
def Agrees (log : ErrorLog) : Prop :=
  log.limitReached ↔ log.dropped ≠ 0

theorem agrees_empty (limit : Nat) : (empty limit).Agrees := by
  simp [Agrees, empty]

/-- Whatever a message does to a log, flag and count change together. -/
theorem Agrees.add (h : log.Agrees) (message : String) : (log.add message).Agrees := by
  rw [ErrorLog.add]
  split
  · next hreached => exact ⟨fun _ => Nat.succ_ne_zero _, fun _ => hreached⟩
  · split
    · exact ⟨fun _ => Nat.succ_ne_zero _, fun _ => rfl⟩
    · exact h

/-- Flag and count agree in every log into which messages have been reported. -/
theorem agrees_foldl_add (h : log.Agrees) (messages : List String) :
    (messages.foldl add log).Agrees := by
  induction messages generalizing log with
  | nil => exact h
  | cons message messages ih => exact ih (h.add message)

/-! ## Below the limit -/

theorem add_of_lt (hlog : log.limitReached = false) (hlimit : log.messages.size < log.limit) :
    log.add message = { log with messages := log.messages.push message } := by
  rw [add, if_neg (by simp [hlog]), if_neg (by omega)]

/-- As long as there is room, all that happens is that messages are added. -/
theorem foldl_add_of_le (hlog : log.limitReached = false)
    (hlimit : log.messages.size + messages.length ≤ log.limit) :
    messages.foldl add log = { log with messages := log.messages ++ messages } := by
  induction messages generalizing log with
  | nil => simp
  | cons message messages ih =>
    rw [List.length_cons] at hlimit
    have hpush : (log.messages.push message).size = log.messages.size + 1 := Array.size_push _
    rw [List.foldl_cons, add_of_lt hlog (by omega)]
    refine (ih ?_ ?_).trans (by simp)
    · exact hlog
    · show (log.messages.push message).size + messages.length ≤ log.limit
      omega

/-! ## Giving up -/

/-- A log that has given up does not take it back. -/
theorem aborted_add (h : log.aborted) : (log.add message).aborted := by
  rw [add_of_aborted h]
  exact h

theorem aborted_foldl_add (h : log.aborted) : (messages.foldl add log).aborted := by
  induction messages generalizing log with
  | nil => exact h
  | cons message messages ih => exact ih (aborted_add h)

theorem aborted_foldl_add_of_lt (hlog : log.limitReached = false)
    (hsize : log.messages.size ≤ log.limit)
    (hlimit : log.limit < log.messages.size + messages.length) :
    (messages.foldl add log).aborted := by
  induction messages generalizing log with
  | nil =>
    rw [List.length_nil] at hlimit
    omega
  | cons message messages ih =>
    rw [List.length_cons] at hlimit
    rw [List.foldl_cons]
    by_cases hroom : log.messages.size < log.limit
    · have hpush : (log.messages.push message).size = log.messages.size + 1 := Array.size_push _
      rw [add_of_lt hlog hroom]
      apply ih
      · exact hlog
      · show (log.messages.push message).size ≤ log.limit
        omega
      · show log.limit < (log.messages.push message).size + messages.length
        omega
    · refine aborted_foldl_add ?_
      rw [add_of_le hlog (by omega)]
      rfl

/-- A log gives up exactly if it is given more messages than its limit. -/
theorem aborted_foldl_add_iff :
    (messages.foldl add (empty limit)).aborted ↔ limit < messages.length := by
  constructor
  · intro h
    refine Nat.lt_of_not_le fun hle => ?_
    have hkept : messages.foldl add (empty limit) = _ :=
      foldl_add_of_le rfl (by simpa [empty] using hle)
    rw [hkept] at h
    cases h
  · intro h
    exact aborted_foldl_add_of_lt rfl (Nat.zero_le _) (by simpa [empty] using h)

theorem messages_foldl_add_of_le (h : messages.length ≤ limit) :
    (messages.foldl add (empty limit)).messages.toList = messages := by
  rw [foldl_add_of_le rfl (by simpa [empty] using h)]
  simp [empty]

theorem messages_foldl_add_of_aborted (h : log.aborted) :
    (messages.foldl add log).messages = log.messages := by
  induction messages generalizing log with
  | nil => rfl
  | cons message messages ih =>
    rw [List.foldl_cons, ih (aborted_add h), add_of_aborted h]

/-- A log that is given more messages than its limit keeps as many as that, and then a notice. -/
theorem messages_foldl_add_of_lt (h : limit < messages.length) :
    (messages.foldl add (empty limit)).messages.toList =
      messages.take limit ++ [notice limit] := by
  have hsize : (messages.take limit).toArray.size = limit := by
    rw [List.size_toArray, List.length_take, Nat.min_eq_left (Nat.le_of_lt h)]
  have hkept : (messages.take limit).foldl add (empty limit) =
      { empty limit with messages := (messages.take limit).toArray } := by
    have hlength : (empty limit).messages.size + (messages.take limit).length ≤ limit :=
      (Nat.zero_add _).symm ▸ List.length_take_le ..
    rw [foldl_add_of_le rfl hlength]
    simp [empty]
  -- the notice is written in place of the first message that is too many
  have hbeyond : ((messages.take limit).foldl add (empty limit)).add messages[limit] =
      { limit, messages := (messages.take limit).toArray.push (notice limit), dropped := 1,
        limitReached := true } := by
    rw [hkept]
    exact add_of_le rfl (Nat.le_of_eq hsize.symm)
  have hfold : messages.foldl add (empty limit) = (messages.drop (limit + 1)).foldl add
      (((messages.take limit).foldl add (empty limit)).add messages[limit]) := by
    rw [← List.foldl_cons, ← List.foldl_append]
    simp
  rw [hfold, messages_foldl_add_of_aborted (by rw [hbeyond]; rfl), hbeyond]
  simp

/-- What a log keeps of the messages it is given. -/
theorem messages_foldl_add (limit : Nat) (messages : List String) :
    (messages.foldl add (empty limit)).messages.toList =
      messages.take limit ++ if limit < messages.length then [notice limit] else [] := by
  split
  · next hlt => exact messages_foldl_add_of_lt hlt
  · next hle =>
    rw [Nat.not_lt] at hle
    rw [messages_foldl_add_of_le hle, List.take_of_length_le hle, List.append_nil]

/-- What it does not keep is counted. -/
theorem dropped_foldl_add (limit : Nat) (messages : List String) :
    (messages.foldl add (empty limit)).dropped = messages.length - limit := by
  -- The log is filled from the front, so the induction is from there.
  induction messages using List.reverseRecOn with
  | nil => exact (Nat.zero_sub limit).symm
  | append_singleton messages message ih =>
    rw [List.foldl_append, List.foldl_cons, List.foldl_nil, List.length_append,
      List.length_singleton]
    by_cases hlt : limit < messages.length
    · rw [add_of_aborted (aborted_foldl_add_iff.2 hlt), ih]
      show messages.length - limit + 1 = messages.length + 1 - limit
      omega
    · rw [Nat.not_lt] at hlt
      have hsize : messages.foldl add (empty limit) =
          { empty limit with messages := (empty limit).messages ++ messages } :=
        foldl_add_of_le rfl (by simpa [empty] using hlt)
      rw [hsize, add, if_neg (by simp [empty])]
      split
      · next hfull =>
        have heq : limit ≤ messages.length := by simpa [empty] using hfull
        show 1 = messages.length + 1 - limit
        omega
      · next hroom =>
        have hlt' : messages.length < limit := by simpa [empty] using hroom
        show 0 = messages.length + 1 - limit
        omega

theorem limit_add (log : ErrorLog) (message : String) : (log.add message).limit = log.limit := by
  rw [add]
  split
  · rfl
  · split <;> rfl

theorem limit_foldl_add (log : ErrorLog) (messages : List String) :
    (messages.foldl add log).limit = log.limit := by
  induction messages generalizing log with
  | nil => rfl
  | cons message messages ih => exact (ih (log.add message)).trans (log.limit_add message)

theorem size_le_size_add : log.messages.size ≤ (log.add message).messages.size := by
  unfold add
  split
  · exact Nat.le_refl _
  · split <;> simp

theorem size_le_size_foldl_add : log.messages.size ≤ (messages.foldl add log).messages.size := by
  induction messages generalizing log with
  | nil => exact Nat.le_refl _
  | cons message messages ih => exact Nat.le_trans size_le_size_add ih

/-- A log that was given a message is not empty. -/
theorem isEmpty_foldl_add_iff :
    (messages.foldl add (empty limit)).messages.isEmpty ↔ messages = [] := by
  cases messages with
  | nil => simp [empty]
  | cons message messages =>
    have hfirst : ((empty limit).add message).messages.size = 1 := by
      unfold add empty
      split
      · contradiction
      · split <;> rfl
    have hle : ((empty limit).add message).messages.size ≤
        ((message :: messages).foldl add (empty limit)).messages.size := size_le_size_foldl_add
    simp only [Array.isEmpty_iff_size_eq_zero, reduceCtorEq, iff_false]
    omega

end Cqasm.ErrorLog
