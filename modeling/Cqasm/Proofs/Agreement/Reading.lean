import Cqasm.Proofs.Agreement.Program

/-!
# Agreement on programs

Two texts whose tokens are alike are read as programs that are alike, and what is complained about
is the same, if reading gives up at the same time in both (`Likeness.readings_ofCursor`).
-/

set_option autoImplicit false

namespace Cqasm

theorem Program.location_relocate (f : Location → Location) (program : Program) :
    (program.relocate f).location = f program.location := by
  cases program <;> rfl

namespace Likeness

open Cqasm.Parser

variable {file file' : String} (k : Likeness file file') {patience patience' : Patience}

/-- Versions are alike if they are the same once their ranges are. -/
def Versions (v w : Version) : Prop :=
  v.relocate k.left = w.relocate k.right

/-- Trees are alike if they are the same once their ranges are. -/
def Roots (r s : Root) : Prop :=
  r.relocate k.left = s.relocate k.right

/-- Readings are alike if the trees are, and the complaints one by one. -/
structure Readings (r s : Reading) : Prop where
  root : k.Roots r.root s.root
  errors : List.Forall₂ k.Complaints r.errors s.errors

variable {k}

/-! ## The head of a program -/

/-- The head of a program takes two tokens on both sides. -/
theorem agree_version : k.Agree k.Versions version version := by
  apply agree_bind agree_here
  intro a b hstart
  apply agree_bind (agree_expect _)
  intro _ _ _
  apply agree_bind (agree_expect _)
  intro t u htoken
  apply agree_bind (agree_rangeFrom hstart)
  intro a b hrange
  apply agree_pure
  unfold Versions
  rw [k.text_eq htoken]
  exact congrArg (Version.mk _) hrange

theorem agree_versionEnd :
    k.Agree (List.Forall₂ k.Statements) versionEnd versionEnd := by
  apply agree_bind agree_statementEnd
  intro _ _ _
  exact agree_pure .nil

theorem agree_qubits : k.Agree (Option.Rel k.Exprs) qubits qubits := by
  apply agree_advance_bind
  apply agree_bind agree_expression
  intro e e' he
  exact agree_pure (.some he)

theorem exprs_erroneous (a b : Location) (h : k.Ranges a b) :
    Option.Rel k.Exprs (some (.erroneous a)) (some (.erroneous b)) := by
  apply Option.Rel.some
  unfold Exprs
  rw [Expr.relocate, Expr.relocate, h]

/-- The clause is there on both sides, or on neither. -/
theorem recoveries_readQubits {c d : Cursor} (h : k.Cursors c d) :
    k.Recoveries (Option.Rel k.Exprs) (readQubits file c) (readQubits file' d) := by
  unfold readQubits
  rw [h.kind_eq]
  split
  · exact recoveries (agree_terminated agree_qubits) exprs_erroneous h
  · exact ⟨.none, .none, h⟩

/-! ## Programs -/

theorem roots_rootOf {p q : Program} (h : p.relocate k.left = q.relocate k.right) :
    k.Roots (Reading.rootOf p) (Reading.rootOf q) := by
  have hlocation := congrArg Program.location h
  rw [Program.location_relocate, Program.location_relocate] at hlocation
  unfold Roots Root.relocate
  rw [Reading.rootOf, Reading.rootOf, h, hlocation]

/-- Behind a version, the readings agree part by part. -/
theorem readings_ofVersion {c d : Cursor} {a b : Location} {v w : Version}
    (hpatiences : k.Patiences patience 0 patience' 0) (hstart : k.Ranges a b)
    (hversion : k.Versions v w) (hcursors : k.Cursors c d) :
    k.Readings (Reading.ofVersion patience file a v c)
      (Reading.ofVersion patience' file' b w d) := by
  have hbroken := recoveries (k := k) agree_versionEnd
    (fun a b hrange => .cons (statements_erroneous a b hrange) .nil) hcursors
  unfold Reading.ofVersion
  dsimp only
  generalize versionEnd.recover _ file c = broken, versionEnd.recover _ file' d = broken'
    at hbroken ⊢
  have hqubits := recoveries_readQubits hbroken.cursor.pastSeparators
  generalize readQubits file broken.cursor.pastSeparators = qubits,
    readQubits file' broken'.cursor.pastSeparators = qubits' at hqubits ⊢
  have herrors : List.Forall₂ k.Complaints (broken.error.toList ++ qubits.error.toList)
      (broken'.error.toList ++ qubits'.error.toList) :=
    List.rel_append (forall₂_toList hbroken.error) (forall₂_toList hqubits.error)
  generalize broken.error.toList ++ qubits.error.toList = errors,
    broken'.error.toList ++ qubits'.error.toList = errors' at herrors ⊢
  -- As many complaints have come up in the one head as in the other.
  have hlater := hpatiences.add errors.length
  rw [Nat.zero_add] at hlater
  rw [← herrors.length_eq]
  obtain ⟨hbody, hbehind⟩ := bodies_readStatements errors.length qubits.cursor errors.length
    qubits'.cursor hlater hqubits.cursor
  refine ⟨roots_rootOf ?_, List.rel_append herrors hbody.errors⟩
  have hrange := hbehind.rangeFrom hstart
  unfold Versions at hversion
  have hstatements : List.Forall₂ k.Statements (broken.value ++ _) (broken'.value ++ _) :=
    List.rel_append hbroken.value hbody.statements
  rw [Program.relocate, Program.relocate, hversion, hrange, optionMap_eq_of_rel hqubits.value,
    map_eq_of_forall₂ hstatements]

/-- Texts whose tokens are alike are read alike. -/
theorem readings_ofCursor {c d : Cursor} (hpatiences : k.Patiences patience 0 patience' 0)
    (hcursors : k.Cursors c d) :
    k.Readings (Reading.ofCursor patience file c) (Reading.ofCursor patience' file' d) := by
  have hpast := hcursors.pastSeparators
  have hstart := k.location_eq hpast.current
  have hversion := agree_version c.pastSeparators d.pastSeparators hpast
  unfold Reading.ofCursor
  dsimp only
  generalize version.run file c.pastSeparators = outcome,
    version.run file' d.pastSeparators = outcome' at hversion ⊢
  cases hversion with
  | ok hvalue hbehind => exact readings_ofVersion hpatiences hstart hvalue hbehind
  | failed hstuck =>
    refine ⟨roots_rootOf ?_, .cons (.misplaced hstuck.current) .nil⟩
    rw [Program.relocate, Program.relocate]
    exact congrArg _ (k.through_eq hstart (k.location_eq hstuck.current))

end Likeness

end Cqasm
