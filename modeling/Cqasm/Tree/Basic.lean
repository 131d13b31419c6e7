import Cqasm.Number.Binary64
import Cqasm.Source.Location

/-!
# The tree of a program

What a cQASM text says, one type per thing that can be said: expressions with their index entries,
annotations, instructions, statements, the version, and the program with its root. Every part knows
the range of the text it was read from. Where reading failed a placeholder stands, one kind each for
an expression, a statement and a whole program, so that a tree is there even for a broken text.
-/

set_option autoImplicit false

namespace Cqasm

/-- Operators written in front of their operand. -/
inductive UnaryOperator where
  | negate
  | not
  | complement
  deriving DecidableEq, Repr, Inhabited

/-- The spelling of an operator. -/
def UnaryOperator.spelling : UnaryOperator → String
  | negate => "-"
  | not => "!"
  | complement => "~"

/-- Operators written between their operands. -/
inductive BinaryOperator where
  | or
  | and
  | equal
  | notEqual
  | less
  | lessEqual
  | greater
  | greaterEqual
  | add
  | subtract
  | multiply
  | divide
  | remainder
  | power
  deriving DecidableEq, Repr, Inhabited

/-- The spelling of an operator. -/
def BinaryOperator.spelling : BinaryOperator → String
  | or => "||"
  | and => "&&"
  | equal => "=="
  | notEqual => "!="
  | less => "<"
  | lessEqual => "<="
  | greater => ">"
  | greaterEqual => ">="
  | add => "+"
  | subtract => "-"
  | multiply => "*"
  | divide => "/"
  | remainder => "%"
  | power => "**"

/-- A name where it is used. -/
structure Identifier where
  name : String
  location : Location
  deriving DecidableEq, Repr, Inhabited

mutual

/-- An expression. -/
inductive Expr where
  | integer (value : Nat) (location : Location)
  | float (value : Binary64) (location : Location)
  | string (value : String) (location : Location)
  /-- Unread JSON text, less its delimiters. -/
  | json (value : String) (location : Location)
  | matrix (rows : List (List Expr)) (location : Location)
  | identifier (identifier : Identifier)
  | call (function : Identifier) (args : List Expr) (location : Location)
  | index (base : Expr) (entries : List IndexEntry) (location : Location)
  | unary (operator : UnaryOperator) (operand : Expr) (location : Location)
  | binary (operator : BinaryOperator) (lhs rhs : Expr) (location : Location)
  /-- What could not be read. -/
  | erroneous (location : Location)

/-- What may stand between the brackets of an index: one value, or both ends of a range. -/
inductive IndexEntry where
  | item (index : Expr) (location : Location)
  | range (first last : Expr) (location : Location)

end

instance : Inhabited Expr := ⟨.erroneous default⟩

instance : Inhabited IndexEntry := ⟨.item default default⟩

namespace Expr

/-- The range of an expression. -/
def location : Expr → Location
  | integer _ location | float _ location | string _ location | json _ location
  | matrix _ location | call _ _ location | index _ _ location | unary _ _ location
  | binary _ _ _ location | erroneous location => location
  | identifier id => id.location

/-- The same expression read from another range: what parentheses around it do. -/
def withLocation (location : Location) : Expr → Expr
  | integer value _ => integer value location
  | float value _ => float value location
  | string value _ => string value location
  | json value _ => json value location
  | matrix rows _ => matrix rows location
  | identifier id => identifier { id with location }
  | call function args _ => call function args location
  | index base entries _ => index base entries location
  | unary operator operand _ => unary operator operand location
  | binary operator lhs rhs _ => binary operator lhs rhs location
  | erroneous _ => erroneous location

@[simp] theorem location_withLocation (location : Location) (e : Expr) :
    (e.withLocation location).location = location := by
  cases e <;> rfl

end Expr

/-- The range of an index entry. -/
def IndexEntry.location : IndexEntry → Location
  | item _ location | range _ _ location => location

/-- An annotation: what a named interface is told about the thing it stands behind. -/
structure Annot where
  interface : Identifier
  operation : Identifier
  operands : List Expr
  location : Location
  deriving Inhabited

/-- An instruction, under a condition or not. -/
structure Instruction where
  name : Identifier
  condition : Option Expr
  operands : List Expr
  annotations : List Annot
  location : Location
  deriving Inhabited

/-- A statement. -/
inductive Statement where
  | mapping (target : Identifier) (expr : Expr) (annotations : List Annot) (location : Location)
  | declaration (names : List Identifier) (type : Identifier) (annotations : List Annot)
      (location : Location)
  | subcircuit (name : Identifier) (iterations : Option Expr) (annotations : List Annot)
      (location : Location)
  | errorModel (name : Identifier) (args : List Expr) (annotations : List Annot)
      (location : Location)
  /-- Instructions that are issued at the same time. -/
  | bundle (items : List Instruction) (location : Location)
  /-- What could not be read. -/
  | erroneous (location : Location)
  deriving Inhabited

/-- The range of a statement. -/
def Statement.location : Statement → Location
  | mapping _ _ _ location | declaration _ _ _ location | subcircuit _ _ _ location
  | errorModel _ _ _ location | bundle _ location | erroneous location => location

/-- One of the numbers of a version: a whole number that a double can hold, or more than any. -/
inductive VersionItem where
  | whole (n : Nat)
  | infinite
  deriving DecidableEq, Repr, Inhabited

namespace VersionItem

/-- The item for a written number, rounded to a double. -/
def ofNat (n : Nat) : VersionItem :=
  match nearestWhole n with
  | some n => whole n
  | none => infinite

/-- All digits of an item. -/
def text : VersionItem → String
  | whole n => toString n
  | infinite => "Infinity"

end VersionItem

/-- The version a program is written for, such as `1.0`. -/
structure Version where
  items : List VersionItem
  location : Location
  deriving DecidableEq, Repr, Inhabited

/-- A program. -/
inductive Program where
  | program (version : Version) (qubits : Option Expr) (statements : List Statement)
      (location : Location)
  /-- A text without a readable version. -/
  | erroneous (location : Location)
  deriving Inhabited

/-- The range of a program. -/
def Program.location : Program → Location
  | program _ _ _ location | erroneous location => location

/-- The whole of what was read. -/
structure Root where
  program : Program
  location : Location
  deriving Inhabited

end Cqasm
