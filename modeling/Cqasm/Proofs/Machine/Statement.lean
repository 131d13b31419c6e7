import Cqasm.Proofs.Machine.Expression
import Cqasm.Proofs.Recognition.Statement

/-!
# Statements, followed

What reads a statement follows its parser. Nothing in a statement touches the count of braces but a
bundle in braces (`followsAt_bracedBundle`): behind its opening brace one brace is open, and whoever
leaves it in between leaves that brace behind, as the failure of the parser says.
-/

set_option autoImplicit false

namespace Cqasm.Machine

open Machine.Action Reader

variable {S α : Type} {k : Setting S} {c : Cursor} {expr : Action (Reader S) Expr}

/-! ## Parts of statements -/

/-- One by one here, all at once there. -/
theorem follows_skipSeparators : Follows k (skipSeparators k.host) Parser.pastSeparators := by
  refine follows_skipping (fun kind tag h => ?_) fun c => ?_
  · split at h
    · assumption
    · cases h
  · have hsome : (fun token : Token =>
        (if token.kind.isSeparator then some () else none : Option Unit).isSome) =
          fun token => token.kind.isSeparator := by
      funext token
      cases token.kind.isSeparator <;> rfl
    rw [hsome]
    rfl

/-- Operands in parentheses, if there is one. -/
theorem follows_optionalOperands (hexpr : Follows k expr Parser.expression) :
    Follows k (optionalOperands k.host expr) Parser.optionalOperands := by
  refine fun c => (followsAt_accept rfl).bind fun isHere _ _ => ?_
  cases isHere with
  | false => exact .pure []
  | true =>
    exact (follows_expressionsBefore _ hexpr _).bind fun _ _ _ => (followsAt_expect rfl).bind
      fun _ _ _ => .pure _

/-- The loop passes the sign, so each annotation starts behind its own. -/
theorem follows_annotations (hexpr : Follows k expr Parser.expression) :
    Follows k (annotations k.host expr) Parser.annotations := by
  refine follows_collecting_nil (fun _ sign => Parser.annotTail sign)
    (@isPlain_of_only .atSign rfl) fun _ sign c => ?_
  refine FollowsAt.congr ?_ (Parser.run_locationOf_bind sign _).symm
  exact (follows_identifier _).bind fun _ _ _ => (followsAt_expect rfl).bind fun _ _ _ =>
    (follows_identifier _).bind fun _ _ _ => (follows_optionalOperands hexpr _).bind fun _ _ _ =>
      (followsAt_rangeFrom _).bind fun _ _ _ => .pure _

theorem follows_operandsAfterComma (hexpr : Follows k expr Parser.expression) :
    Follows k (operandsAfterComma k.host expr) Parser.operandsAfterComma := by
  refine fun c => (followsAt_accept rfl).bind fun isHere _ _ => ?_
  cases isHere with
  | true => exact follows_separatedBy rfl hexpr _
  | false => exact .pure []

/-- Whether there are operands is told by the token at hand, before anything is passed. -/
theorem follows_plainOperands (hexpr : Follows k expr Parser.expression) :
    Follows k (plainOperands k.host expr) Parser.plainOperands := by
  refine fun c => .current ?_
  split
  · exact follows_separatedBy rfl hexpr _
  · exact .pure []

/-- With a condition or without, told by the first token. -/
theorem follows_instruction (hexpr : Follows k expr Parser.expression) :
    Follows k (instruction k.host expr) Parser.instruction := by
  refine fun c => followsAt_here.bind fun start _ _ => (followsAt_accept rfl).bind
    fun isConditional _ _ => ?_
  cases isConditional with
  | true =>
    exact (follows_identifier _).bind fun _ _ _ => (hexpr _).bind fun _ _ _ =>
      (follows_operandsAfterComma hexpr _).bind fun _ _ _ => (follows_annotations hexpr _).bind
        fun _ _ _ => (followsAt_rangeFrom _).bind fun _ _ _ => .pure _
  | false =>
    exact (follows_identifier _).bind fun _ _ _ => (follows_plainOperands hexpr _).bind
      fun _ _ _ => (follows_annotations hexpr _).bind fun _ _ _ => (followsAt_rangeFrom _).bind
        fun _ _ _ => .pure _

theorem follows_bundle (hexpr : Follows k expr Parser.expression) :
    Follows k (bundle k.host expr) Parser.bundle :=
  fun _ => followsAt_here.bind fun _ _ _ => (follows_separatedBy rfl (follows_instruction hexpr)
    _).bind fun _ _ _ => (followsAt_rangeFrom _).bind fun _ _ _ => .pure _

/-! ## Statements with a keyword -/

/-- What has been read is looked at, not the text: only a name can be assigned to. -/
theorem follows_assignedName (first : Expr) :
    Follows k (assignedName k.host first) (Parser.assignedName first) := by
  intro c
  cases first
  case identifier name =>
    refine (followsAt_accept rfl).bind fun isAssigned _ _ => ?_
    cases isAssigned with
    | true => exact .pure (some name)
    | false => exact .pure none
  all_goals exact .pure none

/-- Two spellings, of which one goes on behind the sign of an assignment. -/
theorem followsAt_mapping (hexpr : Follows k expr Parser.expression) (h : isPlain c.kind) :
    FollowsAt k c (mapping k.host expr) Parser.mapping := by
  refine followsAt_here.bind fun start behind hrun => ?_
  cases hrun
  refine .advance h ((hexpr _).bind fun first _ _ => (follows_assignedName first _).bind
    fun target _ _ => ?_)
  cases target with
  | some target =>
    exact (hexpr _).bind fun _ _ _ => (follows_annotations hexpr _).bind fun _ _ _ =>
      (followsAt_rangeFrom _).bind fun _ _ _ => .pure _
  | none =>
    exact (followsAt_expectOneOf _ rfl).bind fun _ _ _ => (follows_identifier _).bind fun _ _ _ =>
      (follows_annotations hexpr _).bind fun _ _ _ => (followsAt_rangeFrom _).bind fun _ _ _ =>
        .pure _

theorem followsAt_declaration (hexpr : Follows k expr Parser.expression) (h : isPlain c.kind) :
    FollowsAt k c (declaration k.host expr) Parser.declaration := by
  refine followsAt_here.bind fun start behind hrun => ?_
  cases hrun
  exact .advance h ((follows_separatedBy rfl follows_identifier _).bind fun _ _ _ =>
    (followsAt_expectOneOf _ rfl).bind fun _ _ _ => (follows_identifier _).bind fun _ _ _ =>
      (follows_annotations hexpr _).bind fun _ _ _ => (followsAt_rangeFrom _).bind fun _ _ _ =>
        .pure _)

/-- The number of iterations in parentheses, if there is one. -/
theorem follows_optionalIterations (hexpr : Follows k expr Parser.expression) :
    Follows k (optionalIterations k.host expr) Parser.optionalIterations := by
  refine fun c => (followsAt_accept rfl).bind fun isHere _ _ => ?_
  cases isHere with
  | false => exact .pure none
  | true => exact (hexpr _).bind fun _ _ _ => (followsAt_expect rfl).bind fun _ _ _ => .pure _

theorem followsAt_subcircuit (hexpr : Follows k expr Parser.expression) (h : isPlain c.kind) :
    FollowsAt k c (subcircuit k.host expr) Parser.subcircuit := by
  refine followsAt_here.bind fun start behind hrun => ?_
  cases hrun
  exact .advance h ((follows_identifier _).bind fun _ _ _ => (follows_optionalIterations hexpr
    _).bind fun _ _ _ => (follows_annotations hexpr _).bind fun _ _ _ =>
      (followsAt_rangeFrom _).bind fun _ _ _ => .pure _)

/-- Every argument comes behind a comma, so they are a loop of their own. -/
theorem followsAt_errorModel (hexpr : Follows k expr Parser.expression) (h : isPlain c.kind) :
    FollowsAt k c (errorModel k.host expr) Parser.errorModel := by
  refine followsAt_here.bind fun start behind hrun => ?_
  cases hrun
  have hargs : Follows k (collecting k.host (only .comma) (fun () _ => expr) [])
      (Parser.manyAfter .comma fun _ => Parser.expression) :=
    follows_collecting_nil (fun _ _ => Parser.expression) (@isPlain_of_only .comma rfl)
      fun _ _ => hexpr
  exact .advance h ((follows_identifier _).bind fun _ _ _ => (hargs _).bind fun _ _ _ =>
    (follows_annotations hexpr _).bind fun _ _ _ => (followsAt_rangeFrom _).bind fun _ _ _ =>
      .pure _)

/-! ## Bundles in braces -/

/-- The instructions in braces behind others. In the end a closing brace is at hand, or whatever
stands in its place. -/
def moreItems (items : List Instruction) : Parser (List Instruction) := do
  let rest ← Parser.bracedRest
  if ← Parser.isAt .eof then Parser.failExpecting (.oneOf [.identifier])
  else return items ++ rest.filterMap id

/-- What one turn of the loop over the instructions reads. -/
def bundlePart (items : List Instruction) :
    Parser (List Instruction ⊕ List Instruction) := do
  if ← Parser.accept .pipe then
    Parser.pastSeparators
    return .inl (items ++ [← Parser.instruction])
  else if ← Parser.look fun _ c => c.kind.endsStatement then
    Parser.pastSeparators
    if ← Parser.isAt .rightBrace then return .inr items
    else return .inl (items ++ [← Parser.instruction])
  else return .inr items

/-- A bar is looked for first, then a separator, and neither ends the loop. -/
theorem follows_bundleTurn (hexpr : Follows k expr Parser.expression)
    (items : List Instruction) :
    Follows k (bundleTurn k.host expr items) (bundlePart items) := by
  refine fun c => (followsAt_accept rfl).bind fun isBar _ _ => ?_
  cases isBar with
  | true =>
    exact (follows_skipSeparators _).bind fun _ _ _ => (follows_instruction hexpr _).bind
      fun _ _ _ => .pure _
  | false =>
    refine followsAt_atSeparator.bind fun isOver _ _ => ?_
    cases isOver with
    | false => exact .pure _
    | true =>
      refine (follows_skipSeparators _).bind fun _ _ _ => (followsAt_isAt _).bind
        fun isClosed _ _ => ?_
      cases isClosed with
      | true => exact .pure _
      | false => exact (follows_instruction hexpr _).bind fun _ _ _ => .pure _

section

variable {file : String} {items : List Instruction}

/-- An instruction that is to start at the end of the text is missed there. -/
theorem run_instruction_of_eof (h : c.kind = .eof) :
    Parser.instruction.run file c =
      .failed { complaint := .expected (.oneOf [.identifier]), openBraces := 0 } c := by
  rw [Parser.instruction, Parser.run_here_bind, Parser.run_accept_bind, h, if_neg (by decide)]
  rw [if_neg (by decide), Parser.plainInstruction, Parser.identifier, Parser.expect,
    Parser.run_bind, Parser.run_bind, Parser.run_expectOneOf, h, if_neg (by decide)]

/-- It makes no difference whether the first separator is passed by itself. -/
theorem pastSeparators_advance (hended : c.Ended) (h : c.kind.isSeparator) :
    c.advance.pastSeparators = c.pastSeparators := by
  have hne : c.kind ≠ .eof := by
    intro heof
    rw [heof] at h
    cases h
  obtain ⟨token, tokens, htokens, hkind⟩ := exists_tokens_of_kind hended rfl hne
  rw [← hkind] at h
  have hpassed : Cursor.passed c.previous token = c.previous := if_pos h
  simp [Cursor.pastSeparators, Cursor.advance, htokens, hpassed, h]

theorem run_endsStatement_bind {β : Type} (f : Bool → Parser β) :
    (Parser.look (fun _ c => c.kind.endsStatement) >>= f).run file c =
      (f c.kind.endsStatement).run file c := rfl

/-- The turn in front of a bar or a separator. -/
theorem run_bundlePart_of_joint {joint : Parser.BundleJoint} (hended : c.Ended)
    (h : Parser.bundleJoint? c.kind = some joint) :
    (bundlePart items).run file c =
      ((Parser.bundleItem joint).run file c.advance).map fun
        | some item => .inl (items ++ [item])
        | none => .inr items := by
  rw [bundlePart, Parser.run_accept_bind]
  cases joint with
  | bar =>
    rw [if_pos (Parser.bundleJoint?_eq_bar_iff.1 h), if_pos rfl, Parser.run_pastSeparators_bind,
      Parser.run_bundleItem_of_not_over (by simp), Parser.run_bind]
    cases Parser.instruction.run file c.advance.pastSeparators <;> rfl
  | separator =>
    have hseparator := Parser.bundleJoint?_eq_separator_iff.1 h
    have hpipe : c.kind ≠ .pipe := by
      intro hpipe
      rw [hpipe] at hseparator
      cases hseparator
    have hends : c.kind.endsStatement := by
      revert hseparator
      cases c.kind <;> decide
    -- The loop skips the separators first and then looks for the brace. The part read as a whole
    -- looks behind them: it is the same place.
    have hpast := pastSeparators_advance hended hseparator
    rw [if_neg hpipe, if_neg (by decide), run_endsStatement_bind, if_pos hends,
      Parser.run_pastSeparators_bind, Parser.run_isAt_bind]
    by_cases hclosed : c.pastSeparators.kind = .rightBrace
    · rw [if_pos (decide_eq_true hclosed), Parser.run_bundleItem_of_over (hpast ▸ hclosed), hpast]
      rfl
    · rw [if_neg (by simpa using hclosed),
        Parser.run_bundleItem_of_not_over fun _ => hpast ▸ hclosed, hpast, Parser.run_bind]
      cases Parser.instruction.run file c.pastSeparators <;> rfl

/-- A turn in front of anything else is the last one. -/
theorem run_bundlePart_of_none (h : Parser.bundleJoint? c.kind = none) (hne : c.kind ≠ .eof) :
    (bundlePart items).run file c = .ok (.inr items) c := by
  have hkind : c.kind ≠ .pipe ∧ c.kind.endsStatement = false := by
    revert h hne
    cases c.kind <;> decide
  rw [bundlePart, Parser.run_accept_bind, if_neg hkind.1, if_neg (by decide),
    run_endsStatement_bind, hkind.2]
  rfl

/-- At the end of the text the turn goes on as behind a separator and misses an instruction. -/
theorem run_bundlePart_of_eof (hended : c.Ended) (h : c.kind = .eof) :
    (bundlePart items).run file c =
      .failed { complaint := .expected (.oneOf [.identifier]), openBraces := 0 } c := by
  have hpast : c.pastSeparators = c := by
    rw [Cursor.pastSeparators, hended.kind_eq_eof_iff.1 h]
    exact congrArg (Cursor.mk c.previous · c.last) (hended.kind_eq_eof_iff.1 h).symm
  rw [bundlePart, Parser.run_accept_bind, h, if_neg (by decide), if_neg (by decide),
    run_endsStatement_bind, h, if_pos (show Kind.eof.endsStatement from rfl),
    Parser.run_pastSeparators_bind, hpast,
    Parser.run_isAt_bind, h, if_neg (by decide), Parser.run_bind, run_instruction_of_eof h]

/-- Where no instruction was read, the closing brace is at hand. -/
theorem kind_of_run_bundleItem {joint : Parser.BundleJoint} {behind : Cursor}
    (h : (Parser.bundleItem joint).run file c = .ok none behind) : behind.kind = .rightBrace := by
  by_cases hover : joint = .separator ∧ c.pastSeparators.kind = .rightBrace
  · obtain ⟨rfl, hkind⟩ := hover
    rw [Parser.run_bundleItem_of_over hkind] at h
    cases h
    exact hkind
  · rw [Parser.run_bundleItem_of_not_over fun hjoint hkind => hover ⟨hjoint, hkind⟩] at h
    cases hrun : Parser.instruction.run file c.pastSeparators <;> rw [hrun] at h <;> cases h

/-- Behind a turn there is what the next turns read. -/
theorem run_moreItems (hended : c.Ended) :
    (moreItems items).run file c = (bundlePart items >>= onward moreItems).run file c := by
  -- At the end of the text the loop does not stop as it does elsewhere: the turn fails.
  by_cases heof : c.kind = .eof
  · have htokens := hended.kind_eq_eof_iff.1 heof
    rw [moreItems, Parser.run_bind, run_many, Parser.runMany_of_nil htokens, Parser.run_bind,
      run_bundlePart_of_eof hended heof]
    simp only [Parser.run_isAt_bind, heof, decide_true, if_true]
    rfl
  · obtain ⟨token, tokens, htokens, hkind⟩ := exists_tokens_of_kind hended rfl heof
    rw [moreItems, Parser.run_bind, run_many, Parser.runMany_of_cons htokens, hkind,
      Parser.run_bind]
    cases hjoint : Parser.bundleJoint? c.kind with
    | none =>
      rw [run_bundlePart_of_none hjoint heof]
      simp only [Parser.run_isAt_bind, heof, decide_false, Bool.false_eq_true, if_false,
        List.filterMap_nil, List.append_nil]
      rfl
    | some joint =>
      rw [run_bundlePart_of_joint hended hjoint]
      cases hitem : (Parser.bundleItem joint).run file c.advance with
      | failed failure stuck => simp only [hitem, Outcome.map]
      | ok item behind =>
        simp only [hitem, Outcome.map]
        cases item with
        | some item =>
          simp only [onward, moreItems, Parser.run_bind, run_many]
          cases Parser.runMany Parser.bundleJoint? _ file behind with
          | failed failure stuck => rfl
          | ok rest behind =>
            simp only [List.filterMap_cons, id_eq, List.append_assoc, List.singleton_append]
        | none =>
          have hkind := kind_of_run_bundleItem hitem
          rw [Parser.runMany_of_none (by rw [hkind]; rfl)]
          simp only [Parser.run_isAt_bind, hkind, reduceCtorEq, decide_false, Bool.false_eq_true,
            if_false, List.filterMap_cons, List.filterMap_nil, id_eq, List.append_nil, onward]

/-- A turn that is not the last has passed its joint. -/
theorem size_bundlePart_lt {next : List Instruction} {behind : Cursor} (hended : c.Ended)
    (hrun : (bundlePart items).run file c = .ok (.inl next) behind) : behind.size < c.size := by
  by_cases heof : c.kind = .eof
  · rw [run_bundlePart_of_eof hended heof] at hrun
    cases hrun
  cases hjoint : Parser.bundleJoint? c.kind with
  | none =>
    rw [run_bundlePart_of_none hjoint heof] at hrun
    cases hrun
  | some joint =>
    have hle := (Parser.bundleItem joint).size_le file c.advance
    rw [run_bundlePart_of_joint hended hjoint] at hrun
    have hbehind := congrArg Outcome.cursor hrun
    rw [Outcome.cursor_map] at hbehind
    rw [hbehind] at hle
    exact Nat.lt_of_le_of_lt hle (size_advance_lt_of_kind hended rfl heof)

end

theorem run_pastSeparators (file : String) (c : Cursor) :
    Parser.pastSeparators.run file c = .ok () c.pastSeparators := rfl

theorem run_isAt (kind : Kind) (file : String) (c : Cursor) :
    (Parser.isAt kind).run file c = .ok (c.kind = kind) c := rfl

/-- The instructions in braces, without the closing brace. -/
def openItems : Parser (List Instruction) := do
  Parser.pastSeparators
  let first ← Parser.instruction
  moreItems [first]

/-- The parser reads what is in front of the closing brace, and then the brace. -/
theorem run_bracedItems (file : String) (c : Cursor) :
    Parser.bracedItems.run file c =
      (openItems >>= fun items =>
        Parser.expect .rightBrace >>= fun _ => pure items).run file c := by
  simp only [Parser.bracedItems, openItems, Parser.run_bind, run_pastSeparators]
  cases Parser.instruction.run file c.pastSeparators with
  | failed failure stuck => rfl
  | ok first behind =>
    simp only [moreItems, Parser.run_bind, run_many]
    cases Parser.runMany Parser.bundleJoint? _ file behind with
    | failed failure stuck => rfl
    | ok rest behind =>
      simp only [Parser.bundleEnd, Parser.run_bind, run_isAt]
      by_cases heof : behind.kind = .eof
      · simp only [heof, decide_true, if_true]
        rfl
      · simp only [heof, decide_false, Bool.false_eq_true, if_false, Parser.run_bind,
          Parser.run_pure]
        cases (Parser.expect .rightBrace).run file behind <;> rfl

/-- All instructions up to the closing brace. -/
theorem follows_openItems (hexpr : Follows k expr Parser.expression) :
    Follows k (Reader.openItems k.host expr) openItems :=
  fun _ => (follows_skipSeparators _).bind fun _ _ _ => (follows_instruction hexpr _).bind
    fun first behind _ => follows_repeating bundlePart moreItems (follows_bundleTurn hexpr)
      (fun _ _ hended => run_moreItems hended) (fun _ _ _ _ hended => size_bundlePart_lt hended)
      [first] behind

section

variable {r t : Reader S} {depth : Nat}

/-- The count goes up once the opening brace is passed. -/
theorem Reader.Balanced.opened (h : r.Balanced depth (.reading 0))
    (hsame : (r.noted (.passes .leftBrace)).SameCounts t) :
    { t with braceDepth := t.braceDepth + 1 }.Balanced depth (.reading 1) where
  activations_eq := hsame.activations.trans h.activations_eq
  expressionDepth_eq := hsame.expressionDepth.trans h.expressionDepth_eq
  depth_le := h.depth_le
  phase_eq := hsame.history ▸ congrArg (·.behind (.passes .leftBrace)) h.phase_eq
  braceDepth_eq := congrArg (· + 1) (hsame.braceDepth.trans h.braceDepth_eq)
  opened_le := Nat.le_refl 1
  allFair := hsame.history ▸ h.allFair_noted _ (fits_of_not_isOperand rfl)

/-- While the next token is asked for, the count may be behind. -/
theorem Reader.Balanced.refused_of_sameCounts {host : Host S} {phase : Phase}
    (h : r.Balanced depth phase) {event : Event} (hevent : event.Fits depth phase)
    (hrefused : Scanner.IsRefused host t.scanner) (hsame : (r.noted event).SameCounts t) :
    t.Refused host depth where
  isRefused := hrefused
  activations_eq := hsame.activations.trans h.activations_eq
  expressionDepth_eq := hsame.expressionDepth.trans h.expressionDepth_eq
  allFair := hsame.history ▸ h.allFair_noted event hevent

/-- And down once the closing brace is. -/
theorem Reader.Balanced.closed (h : r.Balanced depth (.reading 1))
    (hsame : (r.noted (.passes .rightBrace)).SameCounts t) :
    { t with braceDepth := t.braceDepth - 1 }.Balanced depth (.reading 0) where
  activations_eq := hsame.activations.trans h.activations_eq
  expressionDepth_eq := hsame.expressionDepth.trans h.expressionDepth_eq
  depth_le := h.depth_le
  phase_eq := hsame.history ▸ congrArg (·.behind (.passes .rightBrace)) h.phase_eq
  braceDepth_eq := congrArg (· - 1) (hsame.braceDepth.trans h.braceDepth_eq)
  opened_le := Nat.zero_le 1
  allFair := hsame.history ▸ h.allFair_noted _ (fits_of_not_isOperand rfl)

end

/-- The closing brace is passed and then counted, or missed. -/
theorem ends_expect_rightBrace {r : Reader S} {errors : List Diagnostic} (hat : At k r c errors)
    (hbalanced : r.Balanced k.depth k.phase) (hphase : k.phase = .reading 1) :
    Ends (expect k.host .rightBrace) r
      (fun close t => (Parser.expect .rightBrace).run k.host.file c = .ok close c.advance ∧
        At k t c.advance errors ∧
        { t with braceDepth := t.braceDepth - 1 }.Balanced k.depth (.reading 0))
      (LeavesAs k errors ((Parser.expect .rightBrace).run k.host.file c)) := by
  have hnoted := hbalanced.looked
  rw [expect, expectOneOf, isAt, ends_bind, ends_bind, hat.ends_look, ends_pure, Parser.expect,
    Parser.run_expectOneOf]
  by_cases hkind : c.kind = .rightBrace
  · obtain ⟨_, _, htokens, -⟩ := exists_tokens_of_kind hat.ended hkind (by decide)
    rw [hphase] at hnoted
    rw [decide_eq_true (show c.current.kind = .rightBrace from hkind), if_pos rfl, if_pos hkind]
    refine (hat.looked.ends_advance htokens).mono ?_ ?_
    · rintro close t ⟨hclose, hat', hsame⟩
      rw [hkind] at hsame
      exact ⟨by rw [hclose], hat', hnoted.closed hsame⟩
    · rintro _ t ⟨rfl, hrefused, hsame⟩
      exact .refused
        (hnoted.refused_of_sameCounts (fits_of_not_isOperand (hkind ▸ rfl)) hrefused hsame)
  · rw [decide_eq_false (show ¬c.current.kind = .rightBrace from hkind), if_neg (by decide),
      if_neg hkind]
    refine (followsAt_failExpecting _ hat.looked hnoted).mono_post ?_
    rintro _ _ ⟨_, hrun, -⟩
    cases hrun

/-- Whoever leaves a bundle behind its opening brace leaves that brace open. -/
theorem LeavesAs.insideBraces {errors : List Diagnostic} {p : Parser α} {interrupt : Interrupt}
    {t : Reader S} (hphase : k.phase = .reading 0)
    (h : LeavesAs (k.during (.reading 1)) errors (p.run k.host.file c) interrupt t) :
    LeavesAs k errors ((Parser.insideBraces p).run k.host.file c) interrupt t := by
  cases h with
  | @misread _ failure stuck hfailed hat hbalanced =>
    have hrun : (Parser.insideBraces p).run k.host.file c =
        .failed { failure with openBraces := failure.openBraces + 1 } stuck := by
      simp only [Parser.insideBraces, hfailed]
    have hplus : k.phase.plus (failure.openBraces + 1) =
        (k.during (.reading 1)).phase.plus failure.openBraces := by
      rw [hphase]
      exact congrArg Phase.reading (by omega)
    exact .misread hrun (hat.of_setting rfl rfl) (hplus ▸ hbalanced)
  | refused hrefused => exact .refused hrefused

/-- Behind an opening brace one brace is open, until the closing one is passed. -/
theorem ends_bracedItems (hexpr : Follows (k.during (.reading 1)) expr Parser.expression)
    (hphase : k.phase = .reading 0) {r : Reader S} {errors : List Diagnostic}
    (hat : At k r c errors)
    (hopened : { r with braceDepth := r.braceDepth + 1 }.Balanced k.depth (.reading 1)) :
    Ends (bracedItems k.host expr) r
      (fun items t => ∃ behind,
        (Parser.insideBraces Parser.bracedItems).run k.host.file c = .ok items behind ∧
          At k t behind errors ∧ t.Balanced k.depth k.phase)
      (LeavesAs k errors ((Parser.insideBraces Parser.bracedItems).run k.host.file c)) := by
  have hinside : At (k.during (.reading 1)) { r with braceDepth := r.braceDepth + 1 } c errors :=
    At.of_eq (r := r) (hat.of_setting rfl rfl) rfl rfl rfl rfl rfl
  rw [bracedItems, ends_bind, ends_modify, ends_bind]
  refine (follows_openItems hexpr c hinside hopened).mono
    (fun items s ⟨behind, hitems, hat, hbalanced⟩ => ?_) fun interrupt s hleaves => ?_
  · have hbraced : Parser.bracedItems.run k.host.file c =
        (Parser.expect .rightBrace >>= fun _ => pure items).run k.host.file behind :=
      (run_bracedItems _ _).trans (Parser.run_bind_of_ok _ hitems)
    rw [ends_bind]
    refine (ends_expect_rightBrace hat hbalanced rfl).mono
      (fun close t ⟨hclose, hat, hclosed⟩ => ?_) fun interrupt t hleaves => ?_
    · have hrun := hbraced.trans (Parser.run_bind_of_ok _ hclose)
      refine ⟨behind.advance, ?_, ?_, hphase ▸ hclosed⟩
      · simp only [Parser.insideBraces, hrun, Parser.run_pure]
      · exact At.of_eq (r := t) (hat.of_setting rfl rfl) rfl rfl rfl rfl rfl
    · refine LeavesAs.insideBraces hphase ?_
      rw [hbraced]
      exact hleaves.bind
  · refine LeavesAs.insideBraces hphase ?_
    rw [run_bracedItems]
    exact hleaves.bind

/-- The opening brace is passed and counted, and from there on what is in braces is in charge. -/
theorem followsAt_bracedBundle (hexpr : Follows (k.during (.reading 1)) expr Parser.expression)
    (hphase : k.phase = .reading 0) (hkind : c.kind = .leftBrace) :
    FollowsAt k c (bracedBundle k.host expr) Parser.bracedBundle := by
  refine followsAt_here.bind fun start behind hrun => ?_
  cases hrun
  intro r errors hat hbalanced
  obtain ⟨_, _, htokens, -⟩ := exists_tokens_of_kind hat.ended hkind (by decide)
  rw [hphase] at hbalanced
  rw [ends_bind, Parser.run_advance_bind]
  refine (hat.ends_advance htokens).mono (fun _ s ⟨_, hat, hsame⟩ => ?_)
    fun _ s ⟨hinterrupt, hrefused, hsame⟩ => ?_
  · rw [hkind] at hsame
    rw [ends_bind]
    refine (ends_bracedItems hexpr hphase hat (hbalanced.opened hsame)).mono
      (fun items t ⟨behind, hrun, hat, hbalanced⟩ => ?_) fun _ _ hleaves => hleaves.bind
    rw [Parser.run_bind_of_ok _ hrun]
    exact (followsAt_rangeFrom _).bind (fun _ _ _ => .pure _) hat hbalanced
  · subst hinterrupt
    exact .refused
      (hbalanced.refused_of_sameCounts (fits_of_not_isOperand (hkind ▸ rfl)) hrefused hsame)

/-- The first token picks the production. Only one of them touches the count of braces. -/
theorem follows_statement (hexpr : Follows k expr Parser.expression)
    (hinside : Follows (k.during (.reading 1)) expr Parser.expression)
    (hphase : k.phase = .reading 0) :
    Follows k (statement k.host expr) Parser.statement := by
  refine fun c => .current ?_
  cases h : c.current.kind
  case map => exact followsAt_mapping hexpr (isPlain_of_kind h rfl)
  case var => exact followsAt_declaration hexpr (isPlain_of_kind h rfl)
  case dot => exact followsAt_subcircuit hexpr (isPlain_of_kind h rfl)
  case errorModel => exact followsAt_errorModel hexpr (isPlain_of_kind h rfl)
  case leftBrace => exact followsAt_bracedBundle hinside hphase h
  case identifier => exact follows_bundle hexpr c
  case conditionPrefix => exact follows_bundle hexpr c
  all_goals exact followsAt_failExpecting _

/-- Behind a statement there must be a separator. -/
theorem followsAt_terminated {m : Action (Reader S) α} {p : Parser α} (h : FollowsAt k c m p) :
    FollowsAt k c (terminated k.host m) (Parser.terminated p) :=
  h.bind fun _ _ _ => followsAt_requireSeparator.bind fun _ _ _ => .pure _

end Cqasm.Machine
