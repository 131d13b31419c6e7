import Cqasm.Tree.Basic

/-!
# Trees with other ranges

A tree says something, and where it was read. `relocate f` changes the second by giving every node
another range, and `bare` forgets it, so that two trees are equal up to ranges if they are equal
once they are bare.
-/

set_option autoImplicit false

namespace Cqasm

/-! ## Induction over expressions -/

/-- The expressions that an index entry is made of. -/
def IndexEntry.parts : IndexEntry → List Expr
  | item e _ => [e]
  | range first last _ => [first, last]

theorem IndexEntry.sizeOf_lt_of_mem_parts {entry : IndexEntry} {e : Expr} (h : e ∈ entry.parts) :
    sizeOf e < sizeOf entry := by
  cases entry with
  | item =>
    obtain rfl := List.mem_singleton.1 h
    simp
    omega
  | range =>
    simp only [parts, List.mem_cons, List.not_mem_nil, or_false] at h
    rcases h with rfl | rfl <;> simp <;> omega

theorem Expr.sizeOf_lt_of_mem_rows {rows : List (List Expr)} {row : List Expr} {e : Expr}
    (hrow : row ∈ rows) (he : e ∈ row) (location : Location) :
    sizeOf e < sizeOf (matrix rows location) := by
  have := List.sizeOf_lt_of_mem hrow
  have := List.sizeOf_lt_of_mem he
  simp
  omega

theorem Expr.sizeOf_lt_of_mem_args {args : List Expr} {e : Expr} (he : e ∈ args)
    (function : Identifier) (location : Location) :
    sizeOf e < sizeOf (call function args location) := by
  have := List.sizeOf_lt_of_mem he
  simp
  omega

theorem Expr.sizeOf_lt_of_mem_entries {entries : List IndexEntry} {entry : IndexEntry}
    (h : entry ∈ entries) (base : Expr) (location : Location) :
    sizeOf entry < sizeOf (index base entries location) := by
  have := List.sizeOf_lt_of_mem h
  simp
  omega

/-- Induction over an expression. The entries of an index contribute their parts. -/
theorem Expr.induction {motive : Expr → Prop}
    (integer : ∀ value location, motive (.integer value location))
    (float : ∀ value location, motive (.float value location))
    (string : ∀ value location, motive (.string value location))
    (json : ∀ value location, motive (.json value location))
    (matrix : ∀ rows location, (∀ row ∈ rows, ∀ e ∈ row, motive e) → motive (.matrix rows location))
    (identifier : ∀ id, motive (.identifier id))
    (call : ∀ function args location, (∀ e ∈ args, motive e) →
      motive (.call function args location))
    (index : ∀ base entries location, motive base →
      (∀ entry ∈ entries, ∀ e ∈ entry.parts, motive e) → motive (.index base entries location))
    (unary : ∀ operator operand location, motive operand →
      motive (.unary operator operand location))
    (binary : ∀ operator lhs rhs location, motive lhs → motive rhs →
      motive (.binary operator lhs rhs location))
    (erroneous : ∀ location, motive (.erroneous location)) (e : Expr) : motive e := by
  -- What is in a list of a constructor is smaller than the whole, which the recursor does not know.
  have ih (smaller : Expr) (_h : sizeOf smaller < sizeOf e) : motive smaller :=
    Expr.induction integer float string json matrix identifier call index unary binary erroneous
      smaller
  cases e with
  | integer value location => exact integer value location
  | float value location => exact float value location
  | string value location => exact string value location
  | json value location => exact json value location
  | matrix rows location =>
    exact matrix rows location fun row hrow e he => ih e (sizeOf_lt_of_mem_rows hrow he location)
  | identifier id => exact identifier id
  | call function args location =>
    exact call function args location fun e he => ih e (sizeOf_lt_of_mem_args he function location)
  | index base entries location =>
    apply index base entries location (ih base (by simp; omega))
    intro entry hentry e he
    exact ih e (Nat.lt_trans (IndexEntry.sizeOf_lt_of_mem_parts he)
      (sizeOf_lt_of_mem_entries hentry base location))
  | unary operator operand location =>
    exact unary operator operand location (ih operand (by simp; omega))
  | binary operator lhs rhs location =>
    exact binary operator lhs rhs location (ih lhs (by simp; omega)) (ih rhs (by simp; omega))
  | erroneous location => exact erroneous location
termination_by sizeOf e
decreasing_by assumption

/-! ## Relocation -/

/-- The same name with another range. -/
def Identifier.relocate (f : Location → Location) (id : Identifier) : Identifier :=
  { id with location := f id.location }

mutual

/-- The same expression with other ranges, also inside it. -/
def Expr.relocate (f : Location → Location) : Expr → Expr
  | .integer value location => .integer value (f location)
  | .float value location => .float value (f location)
  | .string value location => .string value (f location)
  | .json value location => .json value (f location)
  | .matrix rows location =>
    .matrix (rows.map fun row => row.map fun e => e.relocate f) (f location)
  | .identifier id => .identifier (id.relocate f)
  | .call function args location =>
    .call (function.relocate f) (args.map fun e => e.relocate f) (f location)
  | .index base entries location =>
    .index (base.relocate f) (entries.map fun entry => entry.relocate f) (f location)
  | .unary operator operand location => .unary operator (operand.relocate f) (f location)
  | .binary operator lhs rhs location =>
    .binary operator (lhs.relocate f) (rhs.relocate f) (f location)
  | .erroneous location => .erroneous (f location)
termination_by e => sizeOf e
decreasing_by
  · exact Expr.sizeOf_lt_of_mem_rows ‹row ∈ rows› ‹e ∈ row› location
  all_goals decreasing_tactic

/-- The same index entry with other ranges. -/
def IndexEntry.relocate (f : Location → Location) : IndexEntry → IndexEntry
  | .item e location => .item (e.relocate f) (f location)
  | .range first last location => .range (first.relocate f) (last.relocate f) (f location)
termination_by entry => sizeOf entry

end

section

variable (f : Location → Location)

/-- The same annotation with other ranges. -/
def Annot.relocate (annot : Annot) : Annot where
  interface := annot.interface.relocate f
  operation := annot.operation.relocate f
  operands := annot.operands.map (·.relocate f)
  location := f annot.location

/-- The same instruction with other ranges. -/
def Instruction.relocate (instruction : Instruction) : Instruction where
  name := instruction.name.relocate f
  condition := instruction.condition.map (·.relocate f)
  operands := instruction.operands.map (·.relocate f)
  annotations := instruction.annotations.map (·.relocate f)
  location := f instruction.location

/-- The same statement with other ranges. -/
def Statement.relocate : Statement → Statement
  | mapping target e annotations location =>
    .mapping (target.relocate f) (e.relocate f) (annotations.map (·.relocate f)) (f location)
  | declaration names type annotations location =>
    .declaration (names.map (·.relocate f)) (type.relocate f) (annotations.map (·.relocate f))
      (f location)
  | subcircuit name iterations annotations location =>
    .subcircuit (name.relocate f) (iterations.map (·.relocate f)) (annotations.map (·.relocate f))
      (f location)
  | errorModel name args annotations location =>
    .errorModel (name.relocate f) (args.map (·.relocate f)) (annotations.map (·.relocate f))
      (f location)
  | bundle items location => .bundle (items.map (·.relocate f)) (f location)
  | erroneous location => .erroneous (f location)

/-- The same version with another range. -/
def Version.relocate (version : Version) : Version :=
  { version with location := f version.location }

/-- The same program with other ranges. -/
def Program.relocate : Program → Program
  | program version qubits statements location =>
    .program (version.relocate f) (qubits.map (·.relocate f)) (statements.map (·.relocate f))
      (f location)
  | erroneous location => .erroneous (f location)

/-- The same tree with other ranges. -/
def Root.relocate (root : Root) : Root where
  program := root.program.relocate f
  location := f root.location

end

/-! ## The same ranges -/

theorem map_eq_self {α : Type} {g : α → α} {l : List α} (h : ∀ a ∈ l, g a = a) : l.map g = l := by
  rw [List.map_congr_left h, List.map_id']

theorem Expr.relocate_id (e : Expr) : e.relocate id = e := by
  -- lists of parts stay what they are because each of the parts does
  induction e using Expr.induction with
  | integer | float | string | json | erroneous => simp [relocate]
  | identifier => simp [relocate, Identifier.relocate]
  | matrix rows location ih =>
    have hrows : rows.map (List.map (Expr.relocate id)) = rows :=
      map_eq_self fun row hrow => map_eq_self (ih row hrow)
    rw [relocate]
    exact congrArg (matrix · location) hrows
  | call function args location ih =>
    rw [relocate, map_eq_self ih]
    rfl
  | index base entries location hbase ih =>
    have hentries : ∀ entry ∈ entries, entry.relocate id = entry := by
      intro entry hentry
      have hparts := ih entry hentry
      cases entry <;> simp_all [IndexEntry.relocate, IndexEntry.parts]
    rw [relocate, hbase, map_eq_self hentries]
    rfl
  | unary operator operand location ih =>
    rw [relocate, ih]
    rfl
  | binary operator lhs rhs location hlhs hrhs =>
    rw [relocate, hlhs, hrhs]
    rfl

theorem Expr.map_relocate_id (es : List Expr) : es.map (·.relocate id) = es :=
  map_eq_self fun e _ => e.relocate_id

theorem Annot.relocate_id (annot : Annot) : annot.relocate id = annot := by
  rw [relocate, Expr.map_relocate_id]
  rfl

theorem Annot.map_relocate_id (annots : List Annot) : annots.map (·.relocate id) = annots :=
  map_eq_self fun annot _ => annot.relocate_id

theorem Expr.optionMap_relocate_id (e? : Option Expr) : e?.map (·.relocate id) = e? := by
  cases e? with
  | none => rfl
  | some e => exact congrArg some e.relocate_id

theorem Instruction.relocate_id (instruction : Instruction) :
    instruction.relocate id = instruction := by
  rw [relocate, Expr.optionMap_relocate_id, Expr.map_relocate_id, Annot.map_relocate_id]
  rfl

theorem Statement.relocate_id (statement : Statement) : statement.relocate id = statement := by
  cases statement with
  | mapping =>
    rw [relocate, Expr.relocate_id, Annot.map_relocate_id]
    rfl
  | declaration names =>
    have hnames : names.map (·.relocate id) = names := map_eq_self fun _ _ => rfl
    rw [relocate, hnames, Annot.map_relocate_id]
    rfl
  | subcircuit =>
    rw [relocate, Expr.optionMap_relocate_id, Annot.map_relocate_id]
    rfl
  | errorModel =>
    rw [relocate, Expr.map_relocate_id, Annot.map_relocate_id]
    rfl
  | bundle items =>
    have hitems : items.map (·.relocate id) = items := map_eq_self fun i _ => i.relocate_id
    rw [relocate, hitems]
    rfl
  | erroneous => rfl

/-! ## Bare trees -/

/-- The range of a node of a bare tree, whatever it was. -/
def Location.forget (_ : Location) : Location :=
  default

/-- An expression without its ranges. -/
abbrev Expr.bare (e : Expr) : Expr :=
  e.relocate .forget

/-- A statement without its ranges. -/
abbrev Statement.bare (s : Statement) : Statement :=
  s.relocate .forget

/-- A version without its range. -/
abbrev Version.bare (version : Version) : Version :=
  version.relocate .forget

/-- A program without its ranges. -/
abbrev Program.bare (program : Program) : Program :=
  program.relocate .forget

/-- A tree without its ranges. -/
abbrev Root.bare (root : Root) : Root :=
  root.relocate .forget

theorem Expr.relocate_withLocation (f : Location → Location) (e : Expr) (location : Location) :
    (e.withLocation location).relocate f = (e.relocate f).withLocation (f location) := by
  cases e <;> simp [withLocation, relocate, Identifier.relocate]

/-- Parentheses around an expression leave no trace in the bare one. -/
theorem Expr.bare_withLocation (e : Expr) (location : Location) :
    (e.withLocation location).bare = e.bare := by
  cases e <;> simp [withLocation, relocate, Identifier.relocate, Location.forget]

end Cqasm
