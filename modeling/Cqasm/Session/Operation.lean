import Cqasm.Parse

/-!
# Operations

Everything that can be done to a session from outside, and what comes back (`Session.carryOut`).
Operations may follow each other in any order and any number of times (`Session.after`). Each
reading comes with a driver of its own, so a driver may well remember what it did before.

As long as every fault has a reason, only one operation throws: reading a token from a scanner that
a driver has let out of its hands and that has been disposed of since.
-/

set_option autoImplicit false

namespace Cqasm

/-- Something done to a session. -/
inductive Operation where
  /-- Get hold of the input and make a scanner for it. -/
  | acquire
  /-- Let a driver read from the scanner in use. -/
  | read (driver : Nat → Driver)
  /-- Report a message. -/
  | report (message : String)
  /-- Let go of everything. -/
  | release
  /-- Ask for the result. -/
  | finish
  /-- Read the next token from a scanner, whether it is still in use or not. -/
  | next (scanner : Nat)
  deriving Inhabited

/-- Whatever the driver of an operation throws has a reason, if it has a driver. -/
def Operation.Explains : Operation → Prop
  | .read driver => ∀ scanner, (driver scanner).Explains
  | _ => True

/-- What an operation answers. -/
inductive Answer where
  | nothing
  | acquired (success : Bool)
  | result (result : Result)
  | token (token : Token)
  deriving Inhabited

namespace Session

/-- Carries out an operation: what it answers, or what it throws. -/
def carryOut (s : Session) (operation : Operation) : Attempt Answer :=
  match operation with
  | .acquire => s.acquiring.mapResult .acquired
  | .read driver => (s.readingBy driver).mapResult fun _ => .nothing
  | .report message => (s.reporting message).mapResult fun _ => .nothing
  | .release => s.releasing.mapResult fun _ => .nothing
  | .finish => (.ok (.result s.result), s)
  | .next scanner => Attempt.mapResult (s.readToken scanner) .token

/-- A session after some operations. -/
def after (s : Session) (operations : List Operation) : Session :=
  operations.foldl (fun s operation => (s.carryOut operation).2) s

end Session

end Cqasm
