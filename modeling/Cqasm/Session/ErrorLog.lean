import Cqasm.Number.Shortest

/-!
# Error logs

An `ErrorLog` keeps the first messages it is given, up to a limit. The first one beyond it is
replaced by a notice, and that one and all later ones are only counted. Whoever reports into a log
can ask whether it has given up: a flag says so, which is set together with the first count.
-/

set_option autoImplicit false

namespace Cqasm

/-- Messages in the order of their arrival, how many were turned away, and whether it has come to
that. -/
structure ErrorLog where
  limit : Nat
  messages : Array String
  dropped : Nat
  limitReached : Bool
  deriving DecidableEq, Repr, Inhabited

namespace ErrorLog

/-- The log into which nothing has been reported. -/
def empty (limit : Nat) : ErrorLog :=
  { limit, messages := #[], dropped := 0, limitReached := false }

/-- Whether the log has given up. -/
def aborted (log : ErrorLog) : Bool :=
  log.limitReached

/-- What stands in place of the first message beyond the limit. -/
def notice (limit : Nat) : String :=
  "too many errors, giving up after " ++ wholeText limit

/-- Reports a message. -/
def add (log : ErrorLog) (message : String) : ErrorLog :=
  if log.limitReached then { log with dropped := log.dropped + 1 }
  else if log.limit ≤ log.messages.size then
    { log with
      messages := log.messages.push (notice log.limit)
      dropped := log.dropped + 1
      limitReached := true }
  else { log with messages := log.messages.push message }

/-- Whether the log will have given up once that many more messages have been reported. -/
def isExhaustedBy (log : ErrorLog) (more : Nat) : Bool :=
  log.aborted || log.limit < log.messages.size + more

end ErrorLog

end Cqasm
