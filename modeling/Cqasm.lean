import Cqasm.Token.Literal
import Cqasm.Token.Stream
import Cqasm.Number.Shortest
import Cqasm.Tree.Node
import Cqasm.Tree.Outline
import Cqasm.Tree.Traversal
import Cqasm.Reader.Parser
import Cqasm.Reader.Expression
import Cqasm.Reader.Statement
import Cqasm.Reader.Program
import Cqasm.Session.ErrorLog
import Cqasm.Session.FileSystem
import Cqasm.Session.Log
import Cqasm.Parse
import Cqasm.Session.Directory
import Cqasm.Proofs.Grammar.Expression
import Cqasm.Proofs.Grammar.Program
import Cqasm.Proofs.Recognition.Step
import Cqasm.Proofs.Recognition.Operand
import Cqasm.Proofs.Recognition.Expression
import Cqasm.Proofs.Acceptance
import Cqasm.Proofs.Diagnosis
import Cqasm.Proofs.RoundTrip
import Cqasm.Proofs.Continuation
import Cqasm.Proofs.Limit
import Cqasm.Proofs.ReportOrder
import Cqasm.Proofs.Coverage
import Cqasm.Proofs.Containment
import Cqasm.Proofs.Files
import Cqasm.Proofs.Scanning
import Cqasm.Proofs.Layout
import Cqasm.Proofs.Excerpt
import Cqasm.Session.Operation
import Cqasm.Proofs.Failures
import Cqasm.Proofs.Ownership
import Cqasm.Proofs.Leaks
import Cqasm.Proofs.Height
import Cqasm.Proofs.Grouping
import Cqasm.Proofs.LongestMatch
import Cqasm.Proofs.StrayCharacters
import Cqasm.Proofs.Spacing
import Cqasm.Proofs.LineEndings
import Cqasm.Proofs.Strings
import Cqasm.Proofs.Json
import Cqasm.Proofs.ErrorCap
import Cqasm.Proofs.LocationAlgebra
import Cqasm.Proofs.LocationText
import Cqasm.Proofs.Names
import Cqasm.Proofs.Coordinates
import Cqasm.Proofs.Tree.Walk
import Cqasm.Proofs.Counters
import Cqasm.Proofs.Termination
