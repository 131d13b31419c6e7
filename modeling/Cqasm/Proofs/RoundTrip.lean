import Cqasm.Proofs.Acceptance
import Cqasm.Proofs.Printing.Statement
import Cqasm.Proofs.Printing.Text

/-!
# Printing and parsing

Parsing what was printed gives back the program, up to ranges, and there is nothing to report
(`parse_print`). This holds for every program that can be written down and whatever the ways of the
printer are.

Two facts come together. The words of a printed program are scanned as they were printed
(`Style.tokens_print`), and they spell the program by the grammar (`Style.spells_program`), which is
all that acceptance asks for.
-/

set_option autoImplicit false

namespace Cqasm

/-- A printed program in which expressions are nested no deeper than is accepted is parsed as the
program that was printed. -/
theorem parse_print (settings : Settings) (file : String) (style : Style) (p : Program)
    (h : (Node.program p).Everywhere Node.Printable)
    (hlevels : ∀ e ∈ p.exprs, style.levels e ≤ maxNesting) :
    (parseText settings file (style.print p)).errors = [] ∧
      ∃ root, (parseText settings file (style.print p)).root = some root ∧
        root.program.bare = p.bare := by
  have hscan : (streamOf (style.print p)).tokens.map Token.word = style.program p ∧
      (streamOf (style.print p)).diagnostics = [] := by
    cases p with
    | program => exact Style.tokens_print h
    | erroneous => exact h.here.elim
  obtain ⟨htokens, hlexical⟩ := hscan
  obtain ⟨p', hprogram, hbare⟩ : ∃ p', Grammar.IsProgram file
      ((streamOf (style.print p)).tokens ++ [(streamOf (style.print p)).last]) p' ∧
        p'.bare = p.bare :=
    Style.spells_program h hlevels htokens rfl
  obtain ⟨herrors, hroot⟩ := parseText_of_isProgram settings hlexical hprogram
  exact ⟨herrors, Reading.rootOf p', hroot, hbare⟩

/-- A gate on a sum with a negated operand, printed on its line and parsed back. -/
theorem parse_print_negated_operand :
    let sum : Expr := .binary .add (.unary .negate (.integer 2 default) default)
      (.identifier { name := "theta", location := default }) default
    let gate : Instruction :=
      { name := { name := "rx", location := default }, condition := none, operands := [sum]
        annotations := [], location := default }
    let p : Program :=
      .program { items := [.whole 1, .whole 0], location := default } none
        [.bundle [gate] default] default
    (Node.program p).Everywhere Node.Printable ∧
      (∀ e ∈ p.exprs, Style.plain.levels e ≤ maxNesting) ∧
      Style.plain.print p = "version 1.0 \n rx ( - 2 ) + theta \n" ∧
      (parseText default "f" (Style.plain.print p)).errors = [] ∧
      ∃ root, (parseText default "f" (Style.plain.print p)).root = some root ∧
        root.program.bare = p.bare := by
  intro sum gate p
  -- Each node is printable, from the leaves upwards.
  have hleaf (e : Expr) (he : e.Printable) (hchildren : (Node.expr e).children = []) :
      (Node.expr e).Everywhere Node.Printable :=
    .mk he (by simp [hchildren])
  have htheta := hleaf (.identifier { name := "theta", location := default })
    (show Word.IsName _ by decide +kernel) rfl
  have hrx := hleaf (.identifier { name := "rx", location := default })
    (show Word.IsName _ by decide +kernel) rfl
  have htwo := hleaf (.integer 2 default) (show 2 ≤ largestInteger by decide) rfl
  have hnegated : (Node.expr (.unary .negate (.integer 2 default) default)).Everywhere
      Node.Printable := .mk trivial (List.forall_mem_singleton.2 htwo)
  have hsum : (Node.expr sum).Everywhere Node.Printable :=
    .mk trivial (List.forall_mem_cons.2 ⟨hnegated, List.forall_mem_singleton.2 htheta⟩)
  have hgate : (Node.instruction gate).Everywhere Node.Printable :=
    .mk trivial (List.forall_mem_cons.2 ⟨hrx, List.forall_mem_singleton.2 hsum⟩)
  have hbundle : (Node.statement (.bundle [gate] default)).Everywhere Node.Printable :=
    .mk (List.cons_ne_nil _ _) (List.forall_mem_singleton.2 hgate)
  have hversion : (Node.version { items := [.whole 1, .whole 0], location := default }).Everywhere
      Node.Printable := by
    refine .mk ⟨List.cons_ne_nil _ _, ?_⟩ (by simp [Node.children, Node.fields])
    intro item hitem
    rcases List.mem_pair.1 hitem with rfl | rfl
    · exact ⟨1, by decide, rfl⟩
    · exact ⟨0, by decide, rfl⟩
  have h : (Node.program p).Everywhere Node.Printable :=
    .mk trivial (List.forall_mem_cons.2 ⟨hversion, List.forall_mem_singleton.2 hbundle⟩)
  have hlevels : ∀ e ∈ p.exprs, Style.plain.levels e ≤ maxNesting := by
    intro e he
    obtain rfl : e = sum := by simpa [p, gate, Program.exprs, Statement.exprs, Instruction.exprs]
      using he
    decide +kernel
  exact ⟨h, hlevels, by decide +kernel, parse_print default "f" Style.plain p h hlevels⟩

end Cqasm
