import Cqasm.Proofs.Diagnosis
import Cqasm.Proofs.Machine.Program

/-!
# The counters of the grammar

The grammar counts in two variables how deep it is. A call for an expression takes its count back
however it is left. A bundle in braces takes it back only where it is read to its end; everywhere
else it leaves an open brace behind, which is no longer counted once the rest of the statement is
being skipped. Either way the counters say what they ought to say whenever the grammar looks at a
token (`counters_balanced`). They are not idle in this: over a text that is read without a complaint
each of them rises wherever there is a reason for it to rise (`exists_moment_inside`).
-/

set_option autoImplicit false

namespace Cqasm.Machine

/-- In every run over a text, at every moment of it: `expressionDepth` is the number of calls for
expressions in progress and no more than `maxNesting`, `braceDepth` is the number of braces that the
statement being read has left open, which is never more than one, and both are zero when the loop
over the statements starts a turn. -/
theorem counters_balanced {S : Type} {host : Host S} {input : S} {text : List Char} {frames : Nat}
    (hholds : host.source.Holds input text) (hindex : host.source.index input = 0)
    (hframes : maxNesting < frames) :
    ∃ outcome r, Reader.parse host frames (Reader.start input) = some (outcome, r) ∧
      r.activations = 0 ∧ r.expressionDepth = 0 ∧
      ∀ later moment earlier, r.history = later ++ moment :: earlier →
        moment.expressionDepth = moment.activations ∧
          0 ≤ moment.expressionDepth ∧ moment.expressionDepth ≤ (maxNesting : Int) ∧
          moment.braceDepth = (phaseOf earlier).opened ∧
          (moment.braceDepth = 0 ∨ moment.braceDepth = 1) ∧
          (moment.event = .iterates → moment.expressionDepth = 0 ∧ moment.braceDepth = 0) := by
  obtain ⟨outcome, r, hrun, hends⟩ := (ends_parse hholds hindex hframes).exists
  have hfair : r.Fair := by
    cases outcome with
    | ok root => exact hends.2.2.1
    | error interrupt => exact hends.2.2
  refine ⟨outcome, r, hrun, hfair.activations_eq, hfair.expressionDepth_eq,
    fun later moment earlier hhistory => ?_⟩
  -- a moment was fair when it was recorded, whatever was recorded behind it
  have hall : AllFair (later ++ moment :: earlier) := hhistory ▸ hfair.allFair
  have hmoment := hall.isFair
  have hdepth := hmoment.expressionDepth_eq
  have hbraces := hmoment.braceDepth_eq
  have hle := hmoment.activations_le
  have hopened := hmoment.opened_le
  refine ⟨hdepth, by omega, by omega, hbraces, by omega, fun hiterates => ?_⟩
  obtain ⟨hnone, hclosed⟩ := hmoment.iterates hiterates
  rw [hdepth, hbraces, hnone, hclosed]
  exact ⟨rfl, rfl⟩

/-- The counters do rise. Where a text is read without a complaint, the grammar is found with a
brace open, if there is a left brace in the text, and inside of an expression, if there is a
literal. -/
theorem exists_moment_inside {S : Type} {host : Host S} {input : S} {text : String} {frames : Nat}
    (hholds : host.source.Holds input text.toList) (hindex : host.source.index input = 0)
    (hframes : maxNesting < frames) (htakes : ∀ taken diagnostic, host.takes taken diagnostic)
    (hpatient : host.isExhaustedBy = fun _ => false)
    (herrors : (wholeReading host.file text).errors = []) :
    ∃ root r, Reader.parse host frames (Reader.start input) = some (.ok root, r) ∧
      (.leftBrace ∈ (streamOf text).tokens.map Token.kind →
        ∃ moment ∈ r.history, moment.braceDepth = 1) ∧
      ∀ kind ∈ (streamOf text).tokens.map Token.kind, isOperand kind →
        ∃ moment ∈ r.history, 0 < moment.expressionDepth := by
  obtain ⟨outcome, r, hrun, hends⟩ := (ends_parse hholds hindex hframes).exists
  rw [hpatient] at hends
  cases outcome with
  | error interrupt =>
    obtain ⟨-, ⟨diagnostic, hrefused⟩, -⟩ := hends
    exact nomatch hrefused.symm.trans (htakes _ diagnostic)
  | ok root =>
    obtain ⟨-, -, hfair, htells⟩ := hends
    have hnone := htells.noneGivenUp herrors
    -- everything was passed up to the end of the text, so what stands in it was passed
    have hkinds : passedKinds r.history = (streamOf text).tokens.map Token.kind := by
      obtain ⟨-, -, hstop⟩ := diagnosed_wholeReading host.file text
      exact htells.kinds_eq (congrArg Token.kind hstop)
    rw [← hkinds]
    exact ⟨root, r, hrun, hfair.allFair.exists_braceDepth_eq hnone htells.closed,
      fun kind hkind hoperand => hfair.allFair.exists_expressionDepth_pos hnone hoperand hkind⟩

/-- A bundle in braces with a literal is read. There are moments with the brace open, and moments
inside of the literal's expression. -/
theorem counters_balanced_in_bundle :
    let host := Host.ofChars "f"
    let text := "version 1.0\n\x7b x [1, 2] \x7d\n"
    host.source.Holds (text.toList, 0) text.toList ∧ host.source.index (text.toList, 0) = 0 ∧
      maxNesting < 257 ∧
      ∃ outcome r, Reader.parse host 257 (Reader.start (text.toList, 0)) = some (outcome, r) ∧
        r.activations = 0 ∧ r.expressionDepth = 0 ∧
        (∃ moment ∈ r.history, moment.braceDepth = 1) ∧
        (∃ moment ∈ r.history, 0 < moment.expressionDepth) ∧
        ∀ later moment earlier, r.history = later ++ moment :: earlier →
          moment.expressionDepth = moment.activations ∧
            0 ≤ moment.expressionDepth ∧ moment.expressionDepth ≤ (maxNesting : Int) ∧
            moment.braceDepth = (phaseOf earlier).opened ∧
            (moment.braceDepth = 0 ∨ moment.braceDepth = 1) ∧
            (moment.event = .iterates → moment.expressionDepth = 0 ∧ moment.braceDepth = 0) := by
  intro host text
  have hholds : host.source.Holds (text.toList, 0) text.toList := CharSource.holds_ofChars _ 0
  obtain ⟨outcome, r, hrun, hactivations, hdepth, hmoments⟩ :=
    counters_balanced hholds rfl (by decide : maxNesting < 257)
  obtain ⟨root, r', hrun', hbrace, hliteral⟩ := exists_moment_inside hholds rfl
    (by decide : maxNesting < 257) (fun _ _ => rfl) rfl (by decide +kernel)
  obtain ⟨-, rfl⟩ := Prod.mk.inj (Option.some_inj.1 (hrun.symm.trans hrun'))
  exact ⟨hholds, rfl, by decide, outcome, r, hrun, hactivations, hdepth,
    hbrace (by decide +kernel), hliteral .integer (by decide +kernel) rfl, hmoments⟩

end Cqasm.Machine
