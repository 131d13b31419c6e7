import Cqasm.Proofs.Recognition.Instruction
import Cqasm.Tree.Node

/-!
# Statements are recognised

`statement_recognises`: reading a statement that a separator or the end of the text follows reads
exactly the statements of the grammar.

Two things are less direct than elsewhere. In braces a separator may be followed by another
instruction or by the closing brace, so what follows the first instruction is taken as one row
(`IsBracedRest`). And what a mapping assigns to is read as any expression would be, so the
expressions that are just a name have to be told from the others (`isExpression_identifier_iff`).
-/

set_option autoImplicit false

namespace Cqasm

open Grammar

namespace Parser

variable {file : String} {c behind : Cursor}

/-! ## Bundles on one line -/

/-- Instructions with bars between them. -/
theorem items_recognise :
    (separatedBy .pipe instruction).Recognises file (SeparatedBy .pipe (IsInstruction file))
      (fun k => k.endsInstruction ∧ k ≠ .pipe) :=
  separatedBy_recognises instruction_recognises (by decide)

/-- What is read as a bundle on one line stands for one, with the range of its row. -/
theorem bundle_sound {v : Statement} (hc : c.Ended) (hrun : bundle.run file c = .ok v behind) :
    ∃ ts, c.Passes ts behind ∧ IsStatement file ts v := by
  rw [bundle, run_here_bind] at hrun
  obtain ⟨items, last, hitems, hrun⟩ := run_bind_eq_ok.1 hrun
  rw [run_rangeFrom_bind] at hrun
  obtain ⟨rfl, rfl⟩ := run_pure_eq_ok.1 hrun
  obtain ⟨ts, hts, hitems⟩ := items_recognise.sound hc hitems
  refine ⟨ts, hts, ?_⟩
  rw [hts.rangeFrom_of_begins file (fun k => k = .identifier ∨ k = .conditionPrefix)
    (begins_instruction.separatedBy hitems) (by decide)]
  exact .bundle hitems

/-- Every row of instructions with bars between them is read, if nothing behind it could go on with
it. -/
theorem bundle_complete {ts : List Token} {items : List Instruction} (hpasses : c.Passes ts behind)
    (hitems : SeparatedBy .pipe (IsInstruction file) ts items)
    (hstop : behind.kind.endsInstruction ∧ behind.kind ≠ .pipe) :
    bundle.run file c = .ok (.bundle items (rangeOf file ts)) behind := by
  have hrange := hpasses.rangeFrom_of_begins file (fun k => k = .identifier ∨ k = .conditionPrefix)
    (begins_instruction.separatedBy hitems) (by decide)
  rw [bundle, run_here_bind, run_bind_of_ok _ (items_recognise.complete hpasses hitems hstop),
    run_rangeFrom_bind, hrange]
  rfl

/-! ## Bundles in braces -/

/-- What follows the first instruction in braces, up to the closing one. -/
inductive IsBracedRest (file : String) : Phrase (List Instruction)
  | closed {seps : List Token} : Separators seps → IsBracedRest file seps []
  | bar {sign : Token} {seps ts us : List Token} {i : Instruction} {is : List Instruction} :
      sign.kind = .pipe → Separators seps → IsInstruction file ts i → IsBracedRest file us is →
      IsBracedRest file (sign :: (seps ++ (ts ++ us))) (i :: is)
  | separated {sep : Token} {seps ts us : List Token} {i : Instruction} {is : List Instruction} :
      sep.kind.isSeparator → Separators seps → IsInstruction file ts i →
      IsBracedRest file us is → IsBracedRest file (sep :: (seps ++ (ts ++ us))) (i :: is)

/-- The grammar's row of instructions, seen from its first one: behind it, each of the others comes
with what joins it to the one before. -/
theorem isBracedRest_of_braced {ts behind : List Token} {items : List Instruction}
    (h : IsBraced file ts items) (hbehind : Separators behind) :
    ∃ us vs i is, ts ++ behind = us ++ vs ∧ items = i :: is ∧ IsInstruction file us i ∧
      IsBracedRest file vs is := by
  induction h with
  | last hi => exact ⟨_, behind, _, [], rfl, rfl, hi, .closed hbehind⟩
  | @bar ts us seps sign i is hi hsign hseps _ ih =>
    obtain ⟨ws, xs, i', is', hsplit, rfl, hi', hrest⟩ := ih
    refine ⟨ts, sign :: (seps ++ (ws ++ xs)), i, _, ?_, rfl, hi, .bar hsign hseps hi' hrest⟩
    rw [← hsplit]
    simp
  | @separated ts us seps i is hi hseps _ ih =>
    obtain ⟨ws, xs, i', is', hsplit, rfl, hi', hrest⟩ := ih
    obtain ⟨hseps, hne⟩ := hseps
    cases seps with
    | nil => exact absurd rfl hne
    | cons sep seps =>
      obtain ⟨hsep, hseps⟩ := List.forall_mem_cons.1 hseps
      -- The first separator is the joint, and those behind it belong to the next instruction.
      refine ⟨ts, sep :: (seps ++ (ws ++ xs)), i, _, ?_, rfl, hi,
        .separated hsep hseps hi' hrest⟩
      rw [← hsplit]
      simp

/-- And back. What is left over at the end are separators in front of the closing brace. -/
theorem braced_of_isBracedRest {ts us : List Token} {i : Instruction} {is : List Instruction}
    (hi : IsInstruction file ts i) (h : IsBracedRest file us is) :
    ∃ vs behind, ts ++ us = vs ++ behind ∧ IsBraced file vs (i :: is) ∧ Separators behind := by
  induction h generalizing ts i with
  | closed hseps => exact ⟨ts, _, rfl, .last hi, hseps⟩
  | bar hsign hseps hi' _ ih =>
    obtain ⟨vs, behind, hsplit, hbraced, hbehind⟩ := ih hi'
    refine ⟨_, behind, ?_, .bar hi hsign hseps hbraced, hbehind⟩
    simp [hsplit]
  | @separated sep seps _ _ _ _ hsep hseps hi' _ ih =>
    obtain ⟨vs, behind, hsplit, hbraced, hbehind⟩ := ih hi'
    refine ⟨_, behind, ?_, .separated hi ⟨List.forall_mem_cons.2 ⟨hsep, hseps⟩,
      List.cons_ne_nil sep seps⟩ hbraced, hbehind⟩
    simp [hsplit]

/-- The parser goes on in a bundle at a bar, -/
theorem bundleJoint?_eq_bar_iff {kind : Kind} : bundleJoint? kind = some .bar ↔ kind = .pipe := by
  revert kind
  decide

/-- and at a separator. -/
theorem bundleJoint?_eq_separator_iff {kind : Kind} :
    bundleJoint? kind = some .separator ↔ kind.isSeparator := by
  revert kind
  decide

/-- In front of the closing brace a bundle is over if a separator was passed. -/
theorem run_bundleItem_of_over (hkind : c.pastSeparators.kind = .rightBrace) :
    (bundleItem .separator).run file c = .ok none c.pastSeparators := by
  rw [bundleItem, run_pastSeparators_bind, run_isAt_bind, if_pos (by simp [hkind])]
  rfl

/-- Anywhere else another instruction is read. -/
theorem run_bundleItem_of_not_over {joint : BundleJoint}
    (h : joint = .separator → c.pastSeparators.kind ≠ .rightBrace) :
    (bundleItem joint).run file c = (instruction.run file c.pastSeparators).map some := by
  rw [bundleItem, run_pastSeparators_bind, run_isAt_bind, if_neg (by simpa using h), run_bind]
  cases instruction.run file c.pastSeparators <;> rfl

/-- What `bracedItems` reads behind the first instruction. -/
abbrev bracedRest : Parser (List (Option Instruction)) :=
  many bundleJoint? fun joint _ => bundleItem joint

/-- What is read behind the first instruction stands for the rest of the bundle. The induction is on
the rounds of the loop, each of which reads a joint and, but for the last one, an instruction. -/
theorem bracedRest_sound {rest : List (Option Instruction)} (hc : c.Ended)
    (hrun : bracedRest.run file c = .ok rest behind) :
    ∃ ts, c.Passes ts behind ∧ IsBracedRest file ts (rest.filterMap id) := by
  change runMany _ _ file c = .ok rest behind at hrun
  fun_induction runMany bundleJoint? (fun joint _ => bundleItem joint) file c generalizing rest with
  | case1 c h | case2 c token tokens h hnone =>
    cases hrun
    exact ⟨[], Cursor.passes_nil _, .closed (by simp [Separators])⟩
  | case3 => cases hrun
  | case4 c token tokens h joint hjoint value middle hitem ih =>
    have hstep := Cursor.passes_advance h
    have hpast := c.advance.passes_pastSeparators
    have hseps := Cursor.separators_takeWhile c.advance.tokens
    have hended := hpast.ended (hstep.ended hc)
    cases hrest : runMany bundleJoint? (fun joint _ => bundleItem joint) file middle with
    | failed failure stuck =>
      rw [hrest] at hrun
      cases hrun
    | ok values last =>
      rw [hrest] at hrun
      cases hrun
      by_cases hover : joint = .separator ∧ c.advance.pastSeparators.kind = .rightBrace
      · obtain ⟨rfl, hbrace⟩ := hover
        -- Nothing goes on at a closing brace.
        cases (run_bundleItem_of_over hbrace).symm.trans hitem
        rw [runMany_of_none (by rw [hbrace]; rfl)] at hrest
        cases hrest
        have hsep := bundleJoint?_eq_separator_iff.1 hjoint
        exact ⟨_, hstep.trans hpast, .closed (List.forall_mem_cons.2 ⟨hsep, hseps⟩)⟩
      · rw [run_bundleItem_of_not_over fun hj hbrace => hover ⟨hj, hbrace⟩] at hitem
        cases hinstruction : instruction.run file c.advance.pastSeparators with
        | failed failure stuck =>
          rw [hinstruction] at hitem
          cases hitem
        | ok i stop =>
          rw [hinstruction] at hitem
          cases hitem
          obtain ⟨ts, hts, hi⟩ := instruction_sound hended hinstruction
          obtain ⟨us, hus, hrest⟩ := ih (hts.ended hended) hrest
          have hrow := hstep.trans (hpast.trans (hts.trans hus))
          rw [List.singleton_append] at hrow
          refine ⟨_, hrow, ?_⟩
          cases joint with
          | bar => exact .bar (bundleJoint?_eq_bar_iff.1 hjoint) hseps hi hrest
          | separator => exact .separated (bundleJoint?_eq_separator_iff.1 hjoint) hseps hi hrest

/-- An instruction is over where the rest of the bundle starts, even if nothing is left of it. -/
theorem IsBracedRest.endsInstruction {ts : List Token} {items : List Instruction}
    (h : IsBracedRest file ts items) (hpasses : c.Passes ts behind)
    (hbehind : behind.kind.endsInstruction) : c.kind.endsInstruction := by
  have hpipe : ∀ k : Kind, k = .pipe → k.endsInstruction := by decide
  have hseparator : ∀ k : Kind, k.isSeparator → k.endsInstruction := by decide
  refine hpasses.kind_of_head (Kind.endsInstruction ·) ?_ hbehind
  cases h with
  | closed hseps =>
    cases ts with
    | nil => exact .inl rfl
    | cons sep seps => exact .inr ⟨sep, seps, rfl, hseparator _ (hseps sep List.mem_cons_self)⟩
  | bar hsign => exact .inr ⟨_, _, rfl, hpipe _ hsign⟩
  | separated hsep => exact .inr ⟨_, _, rfl, hseparator _ hsep⟩

/-- A joint and an instruction behind it are read as one item. -/
theorem bracedRest_cons {token : Token} {joint : BundleJoint} {seps ts us : List Token}
    {i : Instruction} {items : List Instruction}
    (hpasses : c.Passes (token :: (seps ++ (ts ++ us))) behind)
    (hjoint : bundleJoint? token.kind = some joint) (hseps : Separators seps)
    (hi : IsInstruction file ts i) (hrest : IsBracedRest file us items)
    (hbehind : behind.kind.endsInstruction)
    (ih : ∀ {c : Cursor}, c.Passes us behind →
      ∃ rest, bracedRest.run file c = .ok rest behind ∧ rest.filterMap id = items) :
    ∃ rest, bracedRest.run file c = .ok rest behind ∧ rest.filterMap id = i :: items := by
  obtain ⟨hstep, hpasses⟩ := Cursor.passes_cons_iff.1 hpasses
  obtain ⟨start, hseparators, hpasses⟩ := Cursor.passes_append_iff.1 hpasses
  obtain ⟨middle, hts, hus⟩ := Cursor.passes_append_iff.1 hpasses
  obtain ⟨rest, hrun, hitems⟩ := ih hus
  -- an instruction starts neither with a separator nor with the brace that closes the bundle
  have hstart : start.kind.isSeparator = false ∧ start.kind ≠ .rightBrace := by
    obtain ⟨first, us, rfl, hfirst⟩ := begins_instruction hi
    rw [hts.kind_eq]
    rcases hfirst with h | h <;> rw [h] <;> decide
  have hpast := hseparators.pastSeparators_eq hseps hstart.1
  have hitem : (bundleItem joint).run file c.advance = .ok (some i) middle := by
    rw [run_bundleItem_of_not_over (by rw [hpast]; exact fun _ => hstart.2), hpast,
      instruction_complete hts hi (hrest.endsInstruction hus hbehind)]
    rfl
  refine ⟨some i :: rest, ?_, congrArg (i :: ·) hitems⟩
  change runMany _ _ file c = _
  rw [runMany_of_ok hstep hjoint hitem]
  exact congrArg (Outcome.map (some i :: ·)) hrun

/-- Every rest of a bundle is read, up to the closing brace. -/
theorem bracedRest_complete {ts : List Token} {items : List Instruction}
    (hpasses : c.Passes ts behind) (h : IsBracedRest file ts items)
    (hbehind : behind.kind = .rightBrace) :
    ∃ rest, bracedRest.run file c = .ok rest behind ∧ rest.filterMap id = items := by
  have hends : behind.kind.endsInstruction := by rw [hbehind]; decide
  have hnone : bundleJoint? behind.kind = none := by rw [hbehind]; rfl
  induction h generalizing c with
  | @closed seps hseps =>
    cases seps with
    | nil =>
      obtain rfl := hpasses.eq_of_nil
      exact ⟨[], runMany_of_none hnone, rfl⟩
    | cons sep seps =>
      obtain ⟨hsep, hseps⟩ := List.forall_mem_cons.1 hseps
      obtain ⟨hstep, hrest⟩ := Cursor.passes_cons_iff.1 hpasses
      have hpast := hrest.pastSeparators_eq hseps (by rw [hbehind]; rfl)
      -- All separators in front of the brace are read as one joint that nothing follows.
      have hover : (bundleItem .separator).run file c.advance = .ok none c.advance.pastSeparators :=
        run_bundleItem_of_over (by rw [hpast, hbehind])
      refine ⟨[none], ?_, rfl⟩
      change runMany _ _ file c = _
      rw [runMany_of_ok hstep (bundleJoint?_eq_separator_iff.2 hsep) hover, hpast,
        runMany_of_none hnone]
      rfl
  | bar hsign hseps hi hrest ih =>
    exact bracedRest_cons hpasses (bundleJoint?_eq_bar_iff.2 hsign) hseps hi hrest hends ih
  | separated hsep hseps hi hrest ih =>
    exact bracedRest_cons hpasses (bundleJoint?_eq_separator_iff.2 hsep) hseps hi hrest hends ih

/-- A bundle in braces ends at a closing brace and nowhere else. -/
theorem run_bundleEnd_eq_ok {u : Unit} :
    bundleEnd.run file c = .ok u behind ↔ c.kind = .rightBrace ∧ behind = c.advance := by
  rw [bundleEnd, run_isAt_bind]
  by_cases hkind : c.kind = .eof
  · rw [if_pos (decide_eq_true hkind), hkind]
    constructor
    · intro h
      cases h
    · rintro ⟨h, -⟩
      cases h
  · rw [if_neg (by simpa using hkind), expect, run_expectOneOf_bind_eq_ok, run_pure_eq_ok]
    simp [eq_comm]

/-- Counting a brace that is left open concerns failures only. -/
theorem run_insideBraces_eq_ok {α : Type} {p : Parser α} {v : α} :
    (insideBraces p).run file c = .ok v behind ↔ p.run file c = .ok v behind := by
  unfold insideBraces
  cases hp : p.run file c <;> simp [hp]

/-- A bundle that is read in braces is one of the grammar: both ways to see the instructions, put
together. -/
theorem bracedBundle_sound {v : Statement} (hc : c.Ended) (hkind : c.kind = .leftBrace)
    (hrun : bracedBundle.run file c = .ok v behind) :
    ∃ ts, c.Passes ts behind ∧ IsStatement file ts v := by
  rw [bracedBundle, run_here_bind, run_advance_bind] at hrun
  obtain ⟨items, last, hitems, hrun⟩ := run_bind_eq_ok.1 hrun
  rw [run_rangeFrom_bind] at hrun
  obtain ⟨rfl, rfl⟩ := run_pure_eq_ok.1 hrun
  rw [run_insideBraces_eq_ok, bracedItems, run_pastSeparators_bind] at hitems
  obtain ⟨first, c₁, hfirst, hitems⟩ := run_bind_eq_ok.1 hitems
  obtain ⟨rest, c₂, hrest, hitems⟩ := run_bind_eq_ok.1 hitems
  obtain ⟨_, c₃, hend, hitems⟩ := run_bind_eq_ok.1 hitems
  obtain ⟨rfl, rfl⟩ := run_pure_eq_ok.1 hitems
  obtain ⟨hclose, rfl⟩ := run_bundleEnd_eq_ok.1 hend
  -- From here on the rows that have been passed are put together.
  have hopening := Cursor.passes_current hc hkind (by decide)
  have hbefore := c.advance.passes_pastSeparators
  have hc := hbefore.ended (hopening.ended hc)
  obtain ⟨ts, hts, hfirst⟩ := instruction_sound hc hfirst
  have hc := hts.ended hc
  obtain ⟨us, hus, hrest⟩ := bracedRest_sound hc hrest
  have hclosing := Cursor.passes_current (hus.ended hc) hclose (by decide)
  obtain ⟨vs, seps, hsplit, hbraced, hseps⟩ := braced_of_isBracedRest hfirst hrest
  have hrow := hopening.trans (hbefore.trans (((hts.trans hus).trans hclosing)))
  rw [hsplit, List.append_assoc, List.singleton_append] at hrow
  refine ⟨_, hrow, ?_⟩
  rw [hrow.rangeFrom_eq file (by rw [show c.current.kind = _ from hkind]; rfl)]
  exact .bracedBundle hkind (Cursor.separators_takeWhile _) hbraced hseps hclose

/-- Every bundle in braces is read, with the range of its row. -/
theorem bracedBundle_complete {opening closing : Token} {before ts seps : List Token}
    {items : List Instruction}
    (hpasses : c.Passes (opening :: (before ++ (ts ++ (seps ++ [closing])))) behind)
    (hopen : opening.kind = .leftBrace) (hbefore : Separators before)
    (hitems : IsBraced file ts items) (hseps : Separators seps)
    (hclose : closing.kind = .rightBrace) :
    bracedBundle.run file c =
      .ok (.bundle items (rangeOf file (opening :: (before ++ (ts ++ (seps ++ [closing]))))))
        behind := by
  have hrange := hpasses.rangeFrom_eq file (by rw [hopen]; rfl)
  obtain ⟨us, vs, i, is, hsplit, rfl, hi, hrest⟩ := isBracedRest_of_braced hitems hseps
  obtain ⟨-, hinner⟩ := Cursor.passes_cons_iff.1 hpasses
  obtain ⟨start, hseparators, hinner⟩ := Cursor.passes_append_iff.1 hinner
  rw [← List.append_assoc, hsplit] at hinner
  obtain ⟨last, hrow, hcurrent, rfl⟩ := Cursor.passes_concat hinner
  obtain ⟨middle, hus, hvs⟩ := Cursor.passes_append_iff.1 hrow
  have hlast : last.kind = .rightBrace := by rw [Cursor.kind, hcurrent, hclose]
  -- Instructions start with no separator, so all of them in front of the first one are passed at
  -- once.
  have hstart : start.kind.isSeparator = false := by
    obtain ⟨first, ws, rfl, hfirst⟩ := begins_instruction hi
    rw [hus.kind_eq]
    rcases hfirst with h | h <;> rw [h] <;> rfl
  have hmiddle := hrest.endsInstruction hvs (by rw [hlast]; decide)
  obtain ⟨rest, hrun, rfl⟩ := bracedRest_complete hvs hrest hlast
  have hend : bundleEnd.run file last = .ok () last.advance := run_bundleEnd_eq_ok.2 ⟨hlast, rfl⟩
  have hinside : bracedItems.run file c.advance = .ok (i :: rest.filterMap id) last.advance := by
    rw [bracedItems, run_pastSeparators_bind, hseparators.pastSeparators_eq hbefore hstart,
      run_bind_of_ok _ (instruction_complete hus hi hmiddle), run_bind_of_ok _ hrun,
      run_bind_of_ok _ hend]
    rfl
  rw [bracedBundle, run_here_bind, run_advance_bind,
    run_bind_of_ok _ (run_insideBraces_eq_ok.2 hinside), run_rangeFrom_bind, hrange]
  rfl

/-! ## Mappings -/

/-- Only indices and operators have levels of their own. -/
theorem isPrimary_of_isLayered {phrase : Phrase Expr} {ts : List Token} {e : Expr}
    (h : IsLayered file phrase ts e)
    (hkind : e.kind ∉ [NodeKind.index, .unaryOp, .binaryOp]) : IsPrimary file phrase ts e := by
  unfold IsLayered at h
  generalize leftLevels = levels at h
  induction levels with
  | nil =>
    cases h with
    | operand h =>
      cases h with
      | indexed h =>
        cases h with
        | primary h => exact h
        | index => simp [Expr.kind] at hkind
      | operator => simp [Expr.kind] at hkind
    | operator => simp [Expr.kind] at hkind
  | cons _ _ ih =>
    cases h with
    | operand h => exact ih h
    | operator => simp [Expr.kind] at hkind

/-- What stands by itself is an expression of every level. -/
theorem isLayered_of_isPrimary {phrase : Phrase Expr} {ts : List Token} {e : Expr}
    (h : IsPrimary file phrase ts e) : IsLayered file phrase ts e := by
  unfold IsLayered
  induction leftLevels with
  | nil => exact .operand (.indexed (.primary h))
  | cons _ _ ih => exact .operand ih

/-- An expression is just a name exactly if its row is one that can be assigned to. -/
theorem isExpression_identifier_iff {levels : Nat} {ts : List Token} {id : Identifier} :
    IsExpression file levels ts (.identifier id) ↔ IsTarget file levels ts id := by
  induction levels generalizing ts id with
  | zero =>
    constructor
    · intro h
      exact h.elim
    · intro h
      cases h
  | succ levels ih =>
    constructor
    · intro h
      -- whatever layers there are, a name alone passes through all of them
      have hprimary := isPrimary_of_isLayered h (by simp [Expr.kind])
      generalize hv : Expr.identifier id = v at hprimary
      cases hprimary with
      | name hname =>
        cases hv
        exact .name hname
      | @parenthesised us _ _ e hopen he hclose =>
        cases e <;> cases hv
        exact .parenthesised hopen (ih.1 he) hclose
      | _ => cases hv
    · intro h
      cases h with
      | name hname => exact isLayered_of_isPrimary (.name hname)
      | parenthesised hopen htarget hclose =>
        exact isLayered_of_isPrimary (.parenthesised hopen (ih.2 htarget) hclose)

/-- A name in front of an equals sign is assigned to, and nothing else is. -/
theorem run_assignedName (e : Expr) :
    (assignedName e).run file c = .ok none c ∨
      ∃ id, e = .identifier id ∧ c.kind = .assign ∧
        (assignedName e).run file c = .ok (some id) c.advance := by
  unfold assignedName
  split
  · next id =>
    rw [run_accept_bind]
    by_cases hkind : c.kind = .assign
    · rw [if_pos hkind]
      exact .inr ⟨id, rfl, hkind, rfl⟩
    · rw [if_neg hkind]
      exact .inl rfl
  · exact .inl rfl

/-- A name in front of the sign of an assignment is assigned to. -/
theorem run_assignedName_of_assign (id : Identifier) (hkind : c.kind = .assign) :
    (assignedName (.identifier id)).run file c = .ok (some id) c.advance := by
  rw [assignedName, run_accept_bind, if_pos hkind]
  rfl

/-- Without the sign nothing is assigned to, whatever the expression is. -/
theorem run_assignedName_of_ne (e : Expr) (hkind : c.kind ≠ .assign) :
    (assignedName e).run file c = .ok none c := by
  rcases run_assignedName e with h | ⟨id, rfl, hassign, -⟩
  · exact h
  · exact absurd hassign hkind

/-- A mapping that is read is of one of the two spellings of the grammar. -/
theorem mapping_sound {v : Statement} (hc : c.Ended) (hkind : c.kind = .map)
    (hrun : mapping.run file c = .ok v behind) :
    ∃ ts, c.Passes ts behind ∧ IsStatement file ts v := by
  rw [mapping, run_here_bind, run_advance_bind] at hrun
  obtain ⟨first, middle, hfirst, hrun⟩ := run_bind_eq_ok.1 hrun
  have hkeyword := Cursor.passes_current hc hkind (by decide)
  have hc := hkeyword.ended hc
  obtain ⟨ts, hts, hfirst⟩ := expression_recognises.sound hc hfirst
  have hc := hts.ended hc
  have hsolid : c.current.kind.isSeparator = false := by
    rw [show c.current.kind = _ from hkind]
    rfl
  -- Whether a name was assigned to tells which of the two spellings it is.
  rcases run_assignedName first with hname | ⟨target, rfl, hassign, hname⟩
  · rw [run_bind_of_ok _ hname] at hrun
    obtain ⟨hcomma, hrun⟩ := run_expectOneOf_bind_eq_ok.1 hrun
    obtain ⟨target, c₁, htarget, hrun⟩ := run_bind_eq_ok.1 hrun
    obtain ⟨annots, c₂, hannots, hrun⟩ := run_bind_eq_ok.1 hrun
    rw [run_rangeFrom_bind] at hrun
    obtain ⟨rfl, rfl⟩ := run_pure_eq_ok.1 hrun
    have hsign := Cursor.passes_current hc hcomma (by decide)
    have hc := hsign.ended hc
    obtain ⟨us, hus, htarget⟩ := identifier_recognises.sound hc htarget
    obtain ⟨vs, hvs, hannots⟩ := annotations_recognises.sound (hus.ended hc) hannots
    have hrow := hkeyword.trans (hts.trans (hsign.trans (hus.trans hvs)))
    rw [List.singleton_append, List.singleton_append] at hrow
    refine ⟨_, hrow, ?_⟩
    rw [hrow.rangeFrom_eq file hsolid]
    exact .mapping hkind hfirst hcomma htarget hannots
  · rw [run_bind_of_ok _ hname] at hrun
    obtain ⟨e, c₁, he, hrun⟩ := run_bind_eq_ok.1 hrun
    obtain ⟨annots, c₂, hannots, hrun⟩ := run_bind_eq_ok.1 hrun
    rw [run_rangeFrom_bind] at hrun
    obtain ⟨rfl, rfl⟩ := run_pure_eq_ok.1 hrun
    have hsign := Cursor.passes_current hc hassign (by decide)
    have hc := hsign.ended hc
    obtain ⟨us, hus, he⟩ := expression_recognises.sound hc he
    obtain ⟨vs, hvs, hannots⟩ := annotations_recognises.sound (hus.ended hc) hannots
    have hrow := hkeyword.trans (hts.trans (hsign.trans (hus.trans hvs)))
    rw [List.singleton_append, List.singleton_append] at hrow
    refine ⟨_, hrow, ?_⟩
    rw [hrow.rangeFrom_eq file hsolid]
    exact .assignment hkind (isExpression_identifier_iff.1 hfirst) hassign he hannots

/-- The spelling with the name in front: the parser reads it as an expression first. -/
theorem assignment_complete {keyword sign : Token} {ts us vs : List Token} {target : Identifier}
    {e : Expr} {annots : List Annot}
    (hpasses : c.Passes (keyword :: (ts ++ sign :: (us ++ vs))) behind)
    (hkeyword : keyword.kind = .map) (htarget : IsTarget file maxNesting ts target)
    (hsign : sign.kind = .assign) (he : IsExpr file us e) (hannots : Many (IsAnnot file) vs annots)
    (hstop : behind.kind.endsStatement) :
    mapping.run file c =
      .ok (.mapping target e annots (rangeOf file (keyword :: (ts ++ sign :: (us ++ vs)))))
        behind := by
  have hrange := hpasses.rangeFrom_eq file (by rw [hkeyword]; rfl)
  obtain ⟨-, hinner⟩ := Cursor.passes_cons_iff.1 hpasses
  obtain ⟨middle, hts, hinner⟩ := Cursor.passes_append_iff.1 hinner
  have hassign : middle.kind = .assign := hinner.kind_eq.trans hsign
  obtain ⟨-, hinner⟩ := Cursor.passes_cons_iff.1 hinner
  obtain ⟨last, hus, hvs⟩ := Cursor.passes_append_iff.1 hinner
  have hlast := annotations_stop hvs hannots hstop
  rw [mapping, run_here_bind, run_advance_bind,
    run_bind_of_ok _ (expression_recognises.complete hts (isExpression_identifier_iff.2 htarget)
      (by rw [hassign]; rfl)),
    run_bind_of_ok _ (run_assignedName_of_assign target hassign),
    run_bind_of_ok _ (expression_recognises.complete hus he hlast.1),
    run_bind_of_ok _ (annotations_complete hvs hannots hstop), run_rangeFrom_bind, hrange]
  rfl

/-- The spelling with the name behind the expression. -/
theorem mapping_complete {keyword comma : Token} {ts us vs : List Token} {target : Identifier}
    {e : Expr} {annots : List Annot}
    (hpasses : c.Passes (keyword :: (ts ++ comma :: (us ++ vs))) behind)
    (hkeyword : keyword.kind = .map) (he : IsExpr file ts e) (hcomma : comma.kind = .comma)
    (htarget : IsName file us target) (hannots : Many (IsAnnot file) vs annots)
    (hstop : behind.kind.endsStatement) :
    mapping.run file c =
      .ok (.mapping target e annots (rangeOf file (keyword :: (ts ++ comma :: (us ++ vs)))))
        behind := by
  have hrange := hpasses.rangeFrom_eq file (by rw [hkeyword]; rfl)
  obtain ⟨-, hinner⟩ := Cursor.passes_cons_iff.1 hpasses
  obtain ⟨middle, hts, hinner⟩ := Cursor.passes_append_iff.1 hinner
  have hmiddle : middle.kind = .comma := hinner.kind_eq.trans hcomma
  obtain ⟨-, hrest⟩ := Cursor.passes_cons_iff.1 hinner
  obtain ⟨last, hus, hvs⟩ := Cursor.passes_append_iff.1 hrest
  rw [mapping, run_here_bind, run_advance_bind,
    run_bind_of_ok _ (expression_recognises.complete hts he (by rw [hmiddle]; rfl)),
    run_bind_of_ok _ (run_assignedName_of_ne e (by rw [hmiddle]; decide))]
  change (expectOneOf _ _ >>= _).run file middle = _
  rw [run_expectOneOf_bind _ hinner.current_eq hcomma,
    run_bind_of_ok _ (identifier_recognises.complete hus htarget trivial),
    run_bind_of_ok _ (annotations_complete hvs hannots hstop), run_rangeFrom_bind, hrange]
  rfl

/-! ## Other statements with a keyword -/

theorem names_recognise :
    (separatedBy .comma identifier).Recognises file (SeparatedBy .comma (IsName file))
      (fun k => True ∧ k ≠ .comma) :=
  separatedBy_recognises identifier_recognises trivial

/-- A declaration of variables that is read is one of the grammar. -/
theorem declaration_sound {v : Statement} (hc : c.Ended) (hkind : c.kind = .var)
    (hrun : declaration.run file c = .ok v behind) :
    ∃ ts, c.Passes ts behind ∧ IsStatement file ts v := by
  rw [declaration, run_here_bind, run_advance_bind] at hrun
  obtain ⟨names, middle, hnames, hrun⟩ := run_bind_eq_ok.1 hrun
  obtain ⟨hcolon, hrun⟩ := run_expectOneOf_bind_eq_ok.1 hrun
  obtain ⟨type, c₁, htype, hrun⟩ := run_bind_eq_ok.1 hrun
  obtain ⟨annots, c₂, hannots, hrun⟩ := run_bind_eq_ok.1 hrun
  rw [run_rangeFrom_bind] at hrun
  obtain ⟨rfl, rfl⟩ := run_pure_eq_ok.1 hrun
  have hkeyword := Cursor.passes_current hc hkind (by decide)
  have hc := hkeyword.ended hc
  obtain ⟨ts, hts, hnames⟩ := names_recognise.sound hc hnames
  have hc := hts.ended hc
  have hsign := Cursor.passes_current hc hcolon (by decide)
  have hc := hsign.ended hc
  obtain ⟨us, hus, htype⟩ := identifier_recognises.sound hc htype
  obtain ⟨vs, hvs, hannots⟩ := annotations_recognises.sound (hus.ended hc) hannots
  have hrow := hkeyword.trans (hts.trans (hsign.trans (hus.trans hvs)))
  rw [List.singleton_append, List.singleton_append] at hrow
  refine ⟨_, hrow, ?_⟩
  rw [hrow.rangeFrom_eq file (by rw [show c.current.kind = _ from hkind]; rfl)]
  exact .declaration hkind hnames hcolon htype hannots

/-- The names end at the colon, the only token at which they may. -/
theorem declaration_complete {keyword colon : Token} {ts us vs : List Token}
    {names : List Identifier} {type : Identifier} {annots : List Annot}
    (hpasses : c.Passes (keyword :: (ts ++ colon :: (us ++ vs))) behind)
    (hkeyword : keyword.kind = .var) (hnames : SeparatedBy .comma (IsName file) ts names)
    (hcolon : colon.kind = .colon) (htype : IsName file us type)
    (hannots : Many (IsAnnot file) vs annots) (hstop : behind.kind.endsStatement) :
    declaration.run file c =
      .ok (.declaration names type annots (rangeOf file (keyword :: (ts ++ colon :: (us ++ vs)))))
        behind := by
  have hrange := hpasses.rangeFrom_eq file (by rw [hkeyword]; rfl)
  obtain ⟨-, hinner⟩ := Cursor.passes_cons_iff.1 hpasses
  obtain ⟨middle, hts, hinner⟩ := Cursor.passes_append_iff.1 hinner
  have hmiddle : middle.kind = .colon := hinner.kind_eq.trans hcolon
  obtain ⟨-, hrest⟩ := Cursor.passes_cons_iff.1 hinner
  obtain ⟨last, hus, hvs⟩ := Cursor.passes_append_iff.1 hrest
  rw [declaration, run_here_bind, run_advance_bind,
    run_bind_of_ok _ (names_recognise.complete hts hnames ⟨trivial, by rw [hmiddle]; decide⟩),
    run_expectOneOf_bind _ hinner.current_eq hcolon,
    run_bind_of_ok _ (identifier_recognises.complete hus htype trivial),
    run_bind_of_ok _ (annotations_complete hvs hannots hstop), run_rangeFrom_bind, hrange]
  rfl

/-- How often a subcircuit is run stands in parentheses. -/
theorem optionalIterations_recognises :
    optionalIterations.Recognises file (InParens (IsExpr file) some none) (· ≠ .leftParen) :=
  inParens_recognises (expression_recognises.mono (by rintro _ rfl; rfl)) some none

/-- A subcircuit that is read is one of the grammar, with iterations or without. -/
theorem subcircuit_sound {v : Statement} (hc : c.Ended) (hkind : c.kind = .dot)
    (hrun : subcircuit.run file c = .ok v behind) :
    ∃ ts, c.Passes ts behind ∧ IsStatement file ts v := by
  rw [subcircuit, run_here_bind, run_advance_bind] at hrun
  obtain ⟨name, c₁, hname, hrun⟩ := run_bind_eq_ok.1 hrun
  obtain ⟨iterations, c₂, hiterations, hrun⟩ := run_bind_eq_ok.1 hrun
  obtain ⟨annots, c₃, hannots, hrun⟩ := run_bind_eq_ok.1 hrun
  rw [run_rangeFrom_bind] at hrun
  obtain ⟨rfl, rfl⟩ := run_pure_eq_ok.1 hrun
  have hdot := Cursor.passes_current hc hkind (by decide)
  have hc := hdot.ended hc
  obtain ⟨ts, hts, hname⟩ := identifier_recognises.sound hc hname
  have hc := hts.ended hc
  obtain ⟨us, hus, hiterations⟩ := optionalIterations_recognises.sound hc hiterations
  obtain ⟨vs, hvs, hannots⟩ := annotations_recognises.sound (hus.ended hc) hannots
  have hrow := hdot.trans (hts.trans (hus.trans hvs))
  rw [List.singleton_append] at hrow
  refine ⟨_, hrow, ?_⟩
  rw [hrow.rangeFrom_eq file (by rw [show c.current.kind = _ from hkind]; rfl)]
  rcases hiterations with ⟨rfl, rfl⟩ | ⟨opening, ws, closing, e, rfl, hopen, he, hclose, rfl⟩
  · exact .subcircuit hkind hname hannots
  · rw [List.cons_append, List.append_assoc, List.singleton_append]
    exact .iteratedSubcircuit hkind hname hopen he hclose hannots

/-- Both spellings at once: the iterations are a phrase that may be empty. -/
theorem subcircuit_complete {dot : Token} {ts us vs : List Token} {name : Identifier}
    {iterations : Option Expr} {annots : List Annot}
    (hpasses : c.Passes (dot :: (ts ++ (us ++ vs))) behind) (hdot : dot.kind = .dot)
    (hname : IsName file ts name) (hiterations : InParens (IsExpr file) some none us iterations)
    (hannots : Many (IsAnnot file) vs annots) (hstop : behind.kind.endsStatement) :
    subcircuit.run file c =
      .ok (.subcircuit name iterations annots (rangeOf file (dot :: (ts ++ (us ++ vs)))))
        behind := by
  have hrange := hpasses.rangeFrom_eq file (by rw [hdot]; rfl)
  obtain ⟨-, hinner⟩ := Cursor.passes_cons_iff.1 hpasses
  obtain ⟨middle, hts, hinner⟩ := Cursor.passes_append_iff.1 hinner
  obtain ⟨last, hus, hvs⟩ := Cursor.passes_append_iff.1 hinner
  have hlast := annotations_stop hvs hannots hstop
  rw [subcircuit, run_here_bind, run_advance_bind,
    run_bind_of_ok _ (identifier_recognises.complete hts hname trivial),
    run_bind_of_ok _ (optionalIterations_recognises.complete hus hiterations hlast.2.2),
    run_bind_of_ok _ (annotations_complete hvs hannots hstop), run_rangeFrom_bind, hrange]
  rfl

theorem args_recognise :
    (manyAfter .comma fun _ => expression).Recognises file (Many (Behind .comma (IsExpr file)))
      (fun k => k.endsExpression ∧ k ≠ .comma) :=
  manyAfter_recognises expression_recognises rfl

/-- An error model that is read is one of the grammar. -/
theorem errorModel_sound {v : Statement} (hc : c.Ended) (hkind : c.kind = .errorModel)
    (hrun : errorModel.run file c = .ok v behind) :
    ∃ ts, c.Passes ts behind ∧ IsStatement file ts v := by
  rw [errorModel, run_here_bind, run_advance_bind] at hrun
  obtain ⟨name, c₁, hname, hrun⟩ := run_bind_eq_ok.1 hrun
  obtain ⟨args, c₂, hargs, hrun⟩ := run_bind_eq_ok.1 hrun
  obtain ⟨annots, c₃, hannots, hrun⟩ := run_bind_eq_ok.1 hrun
  rw [run_rangeFrom_bind] at hrun
  obtain ⟨rfl, rfl⟩ := run_pure_eq_ok.1 hrun
  have hkeyword := Cursor.passes_current hc hkind (by decide)
  have hc := hkeyword.ended hc
  obtain ⟨ts, hts, hname⟩ := identifier_recognises.sound hc hname
  have hc := hts.ended hc
  obtain ⟨us, hus, hargs⟩ := args_recognise.sound hc hargs
  obtain ⟨vs, hvs, hannots⟩ := annotations_recognises.sound (hus.ended hc) hannots
  have hrow := hkeyword.trans (hts.trans (hus.trans hvs))
  rw [List.singleton_append] at hrow
  refine ⟨_, hrow, ?_⟩
  rw [hrow.rangeFrom_eq file (by rw [show c.current.kind = _ from hkind]; rfl)]
  exact .errorModel hkind hname hargs hannots

/-- Each argument comes behind a comma, the first one included. -/
theorem errorModel_complete {keyword : Token} {ts us vs : List Token} {name : Identifier}
    {args : List Expr} {annots : List Annot}
    (hpasses : c.Passes (keyword :: (ts ++ (us ++ vs))) behind)
    (hkeyword : keyword.kind = .errorModel) (hname : IsName file ts name)
    (hargs : Many (Behind .comma (IsExpr file)) us args) (hannots : Many (IsAnnot file) vs annots)
    (hstop : behind.kind.endsStatement) :
    errorModel.run file c =
      .ok (.errorModel name args annots (rangeOf file (keyword :: (ts ++ (us ++ vs))))) behind := by
  have hrange := hpasses.rangeFrom_eq file (by rw [hkeyword]; rfl)
  obtain ⟨-, hinner⟩ := Cursor.passes_cons_iff.1 hpasses
  obtain ⟨middle, hts, hinner⟩ := Cursor.passes_append_iff.1 hinner
  obtain ⟨last, hus, hvs⟩ := Cursor.passes_append_iff.1 hinner
  have hlast := annotations_stop hvs hannots hstop
  rw [errorModel, run_here_bind, run_advance_bind,
    run_bind_of_ok _ (identifier_recognises.complete hts hname trivial),
    run_bind_of_ok _ (args_recognise.complete hus hargs ⟨hlast.1, hlast.2.1⟩),
    run_bind_of_ok _ (annotations_complete hvs hannots hstop), run_rangeFrom_bind, hrange]
  rfl

/-! ## Any statement -/

/-- Whatever is read as a statement stands for one. The first token picks the production. -/
theorem statement_sound {v : Statement} (hc : c.Ended)
    (hrun : statement.run file c = .ok v behind) :
    ∃ ts, c.Passes ts behind ∧ IsStatement file ts v := by
  rw [statement, run_current_bind] at hrun
  unfold statementAt at hrun
  split at hrun
  · next hkind => exact mapping_sound hc hkind hrun
  · next hkind => exact declaration_sound hc hkind hrun
  · next hkind => exact subcircuit_sound hc hkind hrun
  · next hkind => exact errorModel_sound hc hkind hrun
  · next hkind => exact bracedBundle_sound hc hkind hrun
  · exact bundle_sound hc hrun
  · exact bundle_sound hc hrun
  · cases hrun

theorem run_statement_of_kind {kind : Kind} (h : c.kind = kind) :
    statement.run file c = (statementAt kind).run file c := by
  rw [← h]
  rfl

/-- Every statement of the grammar is read, if what is behind it ends statements. The production
says which token is the first. -/
theorem statement_complete {ts : List Token} {v : Statement} (hpasses : c.Passes ts behind)
    (hv : IsStatement file ts v) (hstop : behind.kind.endsStatement) :
    statement.run file c = .ok v behind := by
  -- The first token tells which statement it is, and each has its own lemma.
  cases hv with
  | assignment hkeyword htarget hsign he hannots =>
    rw [run_statement_of_kind (hpasses.kind_eq.trans hkeyword)]
    exact assignment_complete hpasses hkeyword htarget hsign he hannots hstop
  | mapping hkeyword he hcomma htarget hannots =>
    rw [run_statement_of_kind (hpasses.kind_eq.trans hkeyword)]
    exact mapping_complete hpasses hkeyword he hcomma htarget hannots hstop
  | declaration hkeyword hnames hcolon htype hannots =>
    rw [run_statement_of_kind (hpasses.kind_eq.trans hkeyword)]
    exact declaration_complete hpasses hkeyword hnames hcolon htype hannots hstop
  | subcircuit hdot hname hannots =>
    rw [run_statement_of_kind (hpasses.kind_eq.trans hdot)]
    exact subcircuit_complete hpasses hdot hname (.inl ⟨rfl, rfl⟩) hannots hstop
  | @iteratedSubcircuit dot opening closing ts us vs _ _ _ hdot hname hopen he hclose hannots =>
    have hrow : opening :: (us ++ closing :: vs) = (opening :: (us ++ [closing])) ++ vs := by simp
    rw [hrow] at hpasses ⊢
    rw [run_statement_of_kind (hpasses.kind_eq.trans hdot)]
    exact subcircuit_complete hpasses hdot hname
      (.inr ⟨opening, us, closing, _, rfl, hopen, he, hclose, rfl⟩) hannots hstop
  | errorModel hkeyword hname hargs hannots =>
    rw [run_statement_of_kind (hpasses.kind_eq.trans hkeyword)]
    exact errorModel_complete hpasses hkeyword hname hargs hannots hstop
  | bundle hitems =>
    -- what ends a statement ends an instruction, and is no bar
    have hends : ∀ k : Kind, k.endsStatement → k.endsInstruction ∧ k ≠ .pipe := by decide
    have hkind : c.kind = .identifier ∨ c.kind = .conditionPrefix := by
      obtain ⟨token, us, rfl, hfirst⟩ := begins_instruction.separatedBy hitems
      rwa [hpasses.kind_eq]
    rcases hkind with hkind | hkind
    · rw [run_statement_of_kind hkind]
      exact bundle_complete hpasses hitems (hends _ hstop)
    · rw [run_statement_of_kind hkind]
      exact bundle_complete hpasses hitems (hends _ hstop)
  | bracedBundle hopen hbefore hitems hbehind hclose =>
    rw [run_statement_of_kind (hpasses.kind_eq.trans hopen)]
    exact bracedBundle_complete hpasses hopen hbefore hitems hbehind hclose

/-- The parser of statements and the grammar say the same. -/
theorem statement_recognises :
    statement.Recognises file (IsStatement file) (Kind.endsStatement ·) where
  sound := statement_sound
  complete := statement_complete

end Parser

end Cqasm
