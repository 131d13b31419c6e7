import Cqasm.Number.Shortest

/-!
# Faults

What can be thrown at a session from outside: by a file system, by the text it yields, by a driver.
It may be an error with a message, or any value whatever. All that is ever done with a fault is to
ask for its reason (`Fault.describe`), and that can go wrong as well: a value that is no error is
turned into a text, and an object may throw when it is.

A session does not guard against this, so whatever it promises about failures it promises for faults
with a reason (`Fault.HasReason`). All of them have one but such objects
(`Fault.hasReason_iff`).
-/

set_option autoImplicit false

namespace Cqasm

/-- Something thrown. -/
inductive Fault where
  | error (message : String)
  | text (value : String)
  | number (value : Binary64)
  | bool (value : Bool)
  | null
  | undefined
  | integer (value : Int)
  | symbol (description : Option String)
  /-- An object that can be turned into a text, such as an array or a function. -/
  | object (written : String)
  /-- An object that throws when it is to be turned into a text, such as one without a prototype. -/
  | mute (thrown : Fault)
  deriving DecidableEq, Repr, Inhabited

namespace Fault

/-- Asks a fault for its reason: the message of an error, and any other value as it is written. -/
def describe : Fault → Except Fault String
  | error message => .ok message
  | text value => .ok value
  | number value => .ok value.text
  | bool value => .ok (if value then "true" else "false")
  | null => .ok "null"
  | undefined => .ok "undefined"
  | integer value => .ok (wholeText value)
  | symbol description => .ok ("Symbol(" ++ description.getD "" ++ ")")
  | object written => .ok written
  | mute thrown => .error thrown

/-- The reason that a fault gives. Nobody ever gets to see the empty one of a fault that has
none. -/
def reason (fault : Fault) : String :=
  match fault.describe with
  | .ok reason => reason
  | .error _ => ""

/-- That a fault has a reason. -/
def HasReason (fault : Fault) : Prop :=
  fault.describe = .ok fault.reason

instance (fault : Fault) : Decidable fault.HasReason :=
  match h : fault.describe with
  | .ok reason => .isTrue (by rw [HasReason, Fault.reason, h])
  | .error thrown => .isFalse (by rw [HasReason, h]; exact nofun)

/-- What reading from a scanner that has been disposed of throws. -/
def scannerDisposed : Fault :=
  error "scanner used after it was disposed"

/-- Only objects that throw when they are asked have no reason; so every error has one, and every
value that is no object. -/
theorem hasReason_iff {fault : Fault} : fault.HasReason ↔ ∀ thrown, fault ≠ mute thrown := by
  cases fault <;> simp [HasReason, reason, describe]

/-- What is thrown instead of a reason. -/
theorem exists_describe_eq_error {fault : Fault} (h : ¬fault.HasReason) :
    ∃ thrown, fault.describe = .error thrown := by
  cases hdescribe : fault.describe with
  | ok reason => exact absurd (by rw [HasReason, Fault.reason, hdescribe]) h
  | error thrown => exact ⟨thrown, rfl⟩

end Fault

end Cqasm
