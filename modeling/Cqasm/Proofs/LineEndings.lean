import Cqasm.Proofs.Acceptance
import Cqasm.Proofs.Grammar.Separators
import Cqasm.Proofs.Lexical.LineEndings

/-!
# Lines may end either way

An accepted text in which no literal runs over the end of a line is accepted with a carriage return
in front of every newline as well, and its tree is the same with all ranges
(`line_endings_irrelevant`): the tokens are the same in the same places of their lines, newlines
apart, and no range begins or ends in a newline.
-/

set_option autoImplicit false

namespace Cqasm

open Grammar

/-- The text with every line ended by a carriage return and a newline. -/
def crlfText (text : String) : String :=
  .ofList (withReturns text.toList)

theorem Position.line_column_after {here there : Position} (hline : here.line = there.line)
    (hcolumn : here.column = there.column) (text : List Char) :
    (here.after text).line = (there.after text).line ∧
      (here.after text).column = (there.after text).column := by
  induction text generalizing here there with
  | nil => exact ⟨hline, hcolumn⟩
  | cons c text ih =>
    refine ih ?_ ?_
    · unfold next
      split <;> simp [hline]
    · unfold next
      split <;> simp [hcolumn]

/-- Carriage returns at the ends of lines move newlines only. -/
theorem movesSeparators_returned (file : String) : MovesSeparators file Token.returned where
  kind_eq token := by
    unfold Token.returned
    split <;> rfl
  text_eq token := by
    unfold Token.returned
    split <;> rfl
  location_eq token hkind := by
    have hnewline : token.kind ≠ .newline := by
      intro heq
      rw [heq] at hkind
      cases hkind
    have hstart : token.start.returned.line = token.start.line := rfl
    obtain ⟨hline, hcolumn⟩ := Position.line_column_after hstart
      (rfl : token.start.returned.column = token.start.column) token.text
    rw [Token.returned, if_neg hnewline]
    unfold Token.location Token.firstPoint Token.lastPoint Token.stop
    rw [hline, hcolumn]
    rfl

/-- How the lines of an accepted text end is not to be seen in its tree, unless a literal runs over
the end of one. -/
theorem line_endings_irrelevant {settings : Settings} {file text : String}
    (haccepted : (parseText settings file text).errors = [])
    (hliterals : ∀ token ∈ (streamOf text).tokens, token.kind = .string ∨ token.kind = .json →
      '\n' ∉ token.text) :
    (parseText settings file (crlfText text)).errors = [] ∧
      (parseText settings file (crlfText text)).root = (parseText settings file text).root := by
  obtain ⟨hlexical, program, hprogram, hroot⟩ := isProgram_of_errors_eq_nil haccepted
  have hstream : streamOf (crlfText text) = .ofText (withReturns text.toList) := by
    rw [streamOf, crlfText, String.toList_ofList]
  have hlines : Item.LiteralsInLines (streamOf text).items := fun token hitem =>
    hliterals token (TokenStream.mem_tokens_iff.2 hitem)
  have hlexical' : (streamOf (crlfText text)).diagnostics = [] := by
    rw [hstream]
    exact TokenStream.diagnostics_withReturns hlines hlexical
  have htokens : (streamOf (crlfText text)).readAll.1 =
      (streamOf text).readAll.1.map Token.returned := by
    rw [hstream, TokenStream.readAll, TokenStream.tokens_withReturns hlines,
      TokenStream.ofText_withReturns hlines, TokenStream.readAll, List.map_append]
    rfl
  have hprogram' := carries_program (movesSeparators_returned file) hprogram
  rw [← htokens] at hprogram'
  rw [hroot]
  exact parseText_of_isProgram settings hlexical' hprogram'

/-- Newlines behind a comment, in braces and in a matrix, and a literal in each line. -/
theorem line_endings_irrelevant_in_braces :
    let settings : Settings := { logger := .silent, limit := 5, files := .empty }
    let text := "version 1.0 # one\n\n\x7b\n  x q[0]\n  y \"a b\" # two\n\x7d\n" ++
      "z [1;\n 2], \x7b| c |\x7d\n"
    (parseText settings "f" text).errors = [] ∧
      (∀ token ∈ (streamOf text).tokens, token.kind = .string ∨ token.kind = .json →
        '\n' ∉ token.text) ∧
      (parseText settings "f" (crlfText text)).errors = [] ∧
      (parseText settings "f" (crlfText text)).root = (parseText settings "f" text).root := by
  intro settings text
  have haccepted : (parseText settings "f" text).errors = [] := by decide +kernel
  have hliterals : ∀ token ∈ (streamOf text).tokens, token.kind = .string ∨ token.kind = .json →
      '\n' ∉ token.text := by
    decide +kernel
  exact ⟨haccepted, hliterals, line_endings_irrelevant haccepted hliterals⟩

end Cqasm
