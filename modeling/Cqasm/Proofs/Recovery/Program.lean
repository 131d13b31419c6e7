import Cqasm.Proofs.Recovery.Parts
import Mathlib.Data.List.Pairwise

/-!
# One complaint for each placeholder

The complaints about a text and the placeholders in its tree belong together one by one
(`diagnosed_ofCursor`, `Diagnosed.matched`). In a tree the qubits clause stands in front of all
statements, while a broken statement may stand in front of the clause in the text, right behind the
version. So the placeholders are paired in the order in which they start.
-/

set_option autoImplicit false

namespace Cqasm

open Grammar

/-! ## Where parts start -/

/-- Where the qubits clause with the given count starts: at the last keyword that is not behind the
start of the count. -/
def qubitsStart? (tokens : List Token) (count : Expr) : Option Point :=
  ((tokens.filter fun token =>
    token.kind = .qubits && token.firstPoint ≤ count.location.first).getLast?).map Token.firstPoint

/-- Where the qubits clause and the statements of a program start. -/
def partStarts (tokens : List Token) : Program → List Point
  | .program _ qubits statements _ =>
    (qubits.bind (qubitsStart? tokens)).toList ++ statements.map (·.location.first)
  | .erroneous _ => []

/-- A diagnostic is about what a placeholder stands for: it lies at the start of the placeholder or
behind it, and before the start of any part that follows. -/
def Marks (file : String) (starts : List Point) (placeholder : Node) (diagnostic : Diagnostic) :
    Prop :=
  placeholder.location.first ≤ (diagnostic.location file).first ∧
    ∀ start ∈ starts, placeholder.location.first.Before start →
      (diagnostic.location file).first.Before start

section

variable {file : String} {c : Cursor} {parts : List Part}

/-! ## Parts and what they hold -/

theorem Part.before_total (hordered : parts.Pairwise (Part.Before file)) {part other : Part}
    (hpart : part ∈ parts) (hother : other ∈ parts) :
    part = other ∨ part.Before file other ∨ other.Before file part := by
  have hpairwise : parts.Pairwise fun a b => a.Before file b ∨ b.Before file a :=
    hordered.imp Or.inl
  have : Std.Symm fun a b : Part => a.Before file b ∨ b.Before file a := ⟨fun _ _ => Or.symm⟩
  by_cases heq : part = other
  · exact .inl heq
  · exact .inr (hpairwise.forall hpart hother heq)

/-- The complaint about a part is about its placeholder. -/
theorem marks_of_part (hsound : ∀ part ∈ parts, part.Sound file)
    (hordered : parts.Pairwise (Part.Before file)) {part : Part} (hpart : part ∈ parts)
    {node : Node} {diagnostic : Diagnostic} (hbroken : part.broken = some (node, diagnostic)) :
    Marks file (parts.map Part.start) node diagnostic := by
  obtain ⟨hfirst, hle, -⟩ := hsound part hpart node diagnostic hbroken
  rw [← hfirst] at hle
  refine ⟨hle, fun start hstart hbefore => ?_⟩
  obtain ⟨other, hother, rfl⟩ := List.mem_map.1 hstart
  rw [hfirst] at hbefore
  rcases Part.before_total hordered hpart hother with rfl | h | h
  · exact absurd hbefore (Point.not_before_self _)
  · exact h.2 node diagnostic hbroken
  · exact absurd (hbefore.trans h.1) (Point.not_before_self _)

theorem forall₂_placeholder_complaint {R : Node → Diagnostic → Prop}
    (h : ∀ part ∈ parts, ∀ node diagnostic, part.broken = some (node, diagnostic) →
      R node diagnostic) :
    List.Forall₂ R (parts.filterMap Part.placeholder?) (parts.filterMap Part.complaint?) := by
  induction parts with
  | nil => exact .nil
  | cons part parts ih =>
    obtain ⟨hpart, hparts⟩ := List.forall_mem_cons.1 h
    rw [filterMap_cons_eq, filterMap_cons_eq, Part.placeholder?, Part.complaint?]
    cases hbroken : part.broken with
    | none => exact ih hparts
    | some pair => exact .cons (hpart pair.1 pair.2 hbroken) (ih hparts)

theorem pairwise_placeholders (hsound : ∀ part ∈ parts, part.Sound file)
    (hordered : parts.Pairwise (Part.Before file)) :
    (parts.filterMap Part.placeholder?).Pairwise fun a b =>
      a.location.first.Before b.location.first := by
  rw [List.pairwise_filterMap]
  refine hordered.imp_of_mem fun {part later} hpart hlater hbefore node hnode other hother => ?_
  obtain ⟨⟨_, diagnostic⟩, hbroken, rfl⟩ := Option.map_eq_some_iff.1 hnode
  obtain ⟨⟨_, diagnostic'⟩, hbroken', rfl⟩ := Option.map_eq_some_iff.1 hother
  rw [(hsound part hpart _ _ hbroken).1, (hsound later hlater _ _ hbroken').1]
  exact hbefore.1

theorem isLexical_of_complaint (hsound : ∀ part ∈ parts, part.Sound file)
    {diagnostic : Diagnostic} (h : diagnostic ∈ parts.filterMap Part.complaint?) :
    diagnostic.isLexical = false := by
  obtain ⟨part, hpart, hcomplaint⟩ := List.mem_filterMap.1 h
  obtain ⟨⟨node, _⟩, hbroken, rfl⟩ := Option.map_eq_some_iff.1 hcomplaint
  exact (hsound part hpart node _ hbroken).2.2

end

/-! ## The qubits clause -/

theorem placeholders_erroneous_expr (range : Location) :
    (Node.expr (.erroneous range)).placeholders = [.expr (.erroneous range)] := by
  rw [Node.placeholders_eq]
  rfl

section

variable {file : String} {c start : Cursor} {parts : List Part}

/-- The keyword of a clause is the last one at or before the start of its count, which is the
keyword itself if the clause is broken, and else the token behind it. -/
theorem qubitsStart?_eq {before rest : List Token} {keyword : Token} {count : Expr}
    (hc : c.Ordered) (htokens : c.tokens = before ++ keyword :: rest)
    (hkeyword : keyword.kind = .qubits)
    (hcount : count.location.first = keyword.firstPoint ∨
      ∃ token later, rest = token :: later ∧ token.kind ≠ .qubits ∧
        count.location.first = token.firstPoint) :
    qubitsStart? c.tokens count = some keyword.firstPoint := by
  have hpairwise := hc.pairwise
  rw [htokens, List.append_assoc, List.pairwise_append, List.cons_append,
    List.pairwise_cons] at hpairwise
  obtain ⟨-, ⟨hbehind, hrest⟩, -⟩ := hpairwise
  have hle : keyword.firstPoint ≤ count.location.first := by
    rcases hcount with h | ⟨token, later, rfl, -, h⟩
    · rw [h]
      exact Point.le_refl _
    · rw [h]
      exact (hbehind token (by simp)).firstPoint.le
  -- Behind the keyword no token starts early enough, except the one that the count starts at.
  have hlater : ∀ token ∈ rest, ¬(token.kind = .qubits ∧
      token.firstPoint ≤ count.location.first) := by
    rintro token htoken ⟨hkind, htokenLe⟩
    rcases hcount with h | ⟨first, later, rfl, hne, h⟩
    · rw [h] at htokenLe
      exact (hbehind token (List.mem_append_left _ htoken)).firstPoint.not_le htokenLe
    · rw [h] at htokenLe
      rcases List.mem_cons.1 htoken with rfl | hmem
      · exact hne hkind
      · have hfirst := (List.pairwise_cons.1 hrest).1 token (List.mem_append_left _ hmem)
        exact hfirst.firstPoint.not_le htokenLe
  have hnil : rest.filter (fun token => token.kind = .qubits &&
      token.firstPoint ≤ count.location.first) = [] :=
    List.filter_eq_nil_iff.2 (by simpa using hlater)
  rw [qubitsStart?, htokens, List.filter_append, List.filter_cons_of_pos (by simp [hkeyword, hle]),
    hnil, List.getLast?_append, List.getLast?_singleton]
  rfl

/-- What is read at the start of a qubits clause is its count or a placeholder. The count starts at
the token behind the keyword, and the placeholder at the keyword. -/
theorem recovered_qubits (hc : c.Ordered) (hended : c.Ended) (hkind : c.kind = .qubits)
    (read : Recovered (Option Expr))
    (hread : read = (Parser.terminated Parser.qubits).recover
      (fun range => some (.erroneous range)) file c) :
    ∃ e, read.value = some e ∧
      (Node.expr e).placeholders =
        (partOf (fun count => .expr (count.getD default)) c read).placeholder?.toList ∧
      (read.error = none → ∃ first ts, c.Passes (first :: ts) read.cursor) ∧
      (e.location.first = c.current.firstPoint ∨ ∃ token later,
        c.tokens = c.current :: token :: later ∧ token.kind ≠ .qubits ∧
          e.location.first = token.firstPoint) := by
  subst hread
  cases herror : ((Parser.terminated Parser.qubits).recover
      (fun range => some (.erroneous range)) file c).error with
  | none =>
    obtain ⟨hrun, -⟩ := Parser.run_terminated_eq_ok.1 (Parser.run_of_recover herror)
    rw [Parser.qubits, Parser.run_advance_bind] at hrun
    obtain ⟨e, behind, he, hrun⟩ := Parser.run_bind_eq_ok.1 hrun
    obtain ⟨hvalue, rfl⟩ := Parser.run_pure_eq_ok.1 hrun
    have hkeyword := Cursor.passes_current hended hkind (by decide)
    obtain ⟨ts, hts, he⟩ := Parser.expression_recognises.sound (hkeyword.ended hended) he
    have hwhole := yields_expression _ he
    have hstarts : ∀ k : Kind, startsExpression k → k ≠ .qubits := by decide
    obtain ⟨first, us, hsplit, hfirst⟩ := Parser.begins_expression _ he
    obtain ⟨token, later, rfl, hlocation⟩ := leads_expression _ he
    cases hsplit
    have hline := (hkeyword.ordered hc).line_ne_zero file
    rw [hts.current_eq] at hline
    refine ⟨e, hvalue.symm, ?_, fun _ => ⟨_, _, hkeyword.trans hts⟩, .inr ⟨_, _,
      (hkeyword.trans hts).tokens_eq, hstarts _ hfirst, hlocation hline⟩⟩
    rw [partOf, herror]
    exact hwhole
  | some diagnostic =>
    obtain ⟨range, hvalue, hfirst, -⟩ := recover_of_error hc herror
    refine ⟨_, hvalue, ?_, fun h => (by cases h), .inl hfirst⟩
    rw [partOf, herror, hvalue]
    exact placeholders_erroneous_expr range

/-- The qubits clause is a part that starts at its keyword; if there is none, no part is added. -/
theorem survey_readQubits (hc : c.Ordered) (hended : c.Ended)
    (hrest : Survey file (readQubits file c.pastSeparators).cursor.pastSeparators parts) :
    ∃ clause : List Part, Survey file c.pastSeparators (clause ++ parts) ∧
      clause.filterMap Part.complaint? = (readQubits file c.pastSeparators).error.toList ∧
      clause.filterMap Part.placeholder? =
        (readQubits file c.pastSeparators).value.toList.flatMap
          (fun e => (Node.expr e).placeholders) ∧
      ∀ count ∈ (readQubits file c.pastSeparators).value, ∃ keyword rest,
        c.pastSeparators.tokens = keyword :: rest ∧ keyword.kind = .qubits ∧
        keyword.firstPoint ∈ clause.map Part.start ∧
        (count.location.first = keyword.firstPoint ∨ ∃ token later, rest = token :: later ∧
          token.kind ≠ .qubits ∧ count.location.first = token.firstPoint) := by
  have hpast := c.passes_pastSeparators
  have hc' := hpast.ordered hc
  have hended' := hpast.ended hended
  unfold readQubits at hrest ⊢
  -- With a clause there is one part more, and without one the separators are simply passed.
  by_cases hkind : c.pastSeparators.kind = .qubits
  · rw [if_pos hkind] at hrest ⊢
    have htokens := (Cursor.passes_current hended' hkind (by decide)).tokens_eq
    obtain ⟨e, hvalue, hplaceholders, hprogress, hfirst⟩ :=
      recovered_qubits hc' hended' hkind _ rfl
    have hne : c.pastSeparators.tokens ≠ [] := by
      rw [htokens]
      exact List.cons_ne_nil _ _
    refine ⟨[partOf (fun count => .expr (count.getD default)) c.pastSeparators _],
      survey_recover hc' hne (fun _ => rfl) hprogress hrest, ?_, ?_, ?_⟩
    · rw [filterMap_cons_eq, complaint?_partOf, List.filterMap_nil, List.append_nil]
    · rw [filterMap_cons_eq, ← hplaceholders, hvalue]
      simp
    · rintro count hcount
      cases hvalue.symm.trans hcount
      refine ⟨_, _, htokens, hkind, List.mem_singleton.2 rfl, ?_⟩
      rcases hfirst with h | ⟨token, later, hsplit, hne, h⟩
      · exact .inl h
      · exact .inr ⟨token, later, List.tail_eq_of_cons_eq (htokens.symm.trans hsplit), hne, h⟩
  · rw [if_neg hkind] at hrest ⊢
    rw [Cursor.pastSeparators_pastSeparators] at hrest
    exact ⟨[], hrest, rfl, rfl, by simp⟩

theorem exists_passes_readQubits (file : String) (c : Cursor) :
    ∃ ts, c.Passes ts (readQubits file c).cursor := by
  unfold readQubits
  split
  · exact exists_passes_recover ..
  · exact ⟨[], c.passes_nil⟩

/-! ## The line of the version -/

/-- What stands behind the version in its line is a part if it is broken, and nothing otherwise. -/
theorem survey_versionEnd (hc : c.Ordered) (hended : c.Ended) (broken : Recovered (List Statement))
    (hbroken : broken = Parser.versionEnd.recover (fun range => [.erroneous range]) file c)
    (hrest : Survey file broken.cursor.pastSeparators parts) :
    ∃ tail : List Part, Survey file c (tail ++ parts) ∧
      tail.filterMap Part.complaint? = broken.error.toList ∧
      tail.filterMap Part.placeholder? =
        broken.value.flatMap (fun s => (Node.statement s).placeholders) ∧
      tail.map Part.start = broken.value.map (·.location.first) := by
  subst hbroken
  cases herror : (Parser.versionEnd.recover (fun range => [.erroneous range]) file c).error with
  | none =>
    obtain ⟨-, hvalue, hcursor⟩ := run_versionEnd_eq_ok.1 (Parser.run_of_recover herror)
    rw [← hcursor] at hrest
    rw [← hvalue]
    exact ⟨[], hrest.mono fun _ => Cursor.mem_of_mem_pastSeparators, rfl, rfl, rfl⟩
  | some diagnostic =>
    obtain ⟨range, hvalue, hfirst, -⟩ := recover_of_error hc herror
    -- The end of the text ends the line of the version, so there is a token to complain about.
    have hne : c.tokens ≠ [] := by
      intro hnil
      have heof : c.kind.endsStatement := by rw [hended.kind_eq_eof_iff.2 hnil]; rfl
      have hrun : Parser.versionEnd.run file c = .ok [] c :=
        run_versionEnd_eq_ok.2 ⟨heof, rfl, rfl⟩
      rw [Parser.recover_of_ok _ hrun] at herror
      cases herror
    refine ⟨[partOf (fun ss => .statement (ss.headD default)) c _],
      survey_recover hc hne (fun _ => rfl) (fun h => by rw [h] at herror; cases herror) hrest,
      ?_, ?_, ?_⟩
    · rw [filterMap_cons_eq, complaint?_partOf, herror]
      rfl
    · rw [filterMap_cons_eq, partOf, herror, hvalue]
      exact congrArg (· ++ []) (placeholders_erroneous range).symm
    · rw [hvalue]
      exact congrArg (fun point => [point]) hfirst.symm

end

/-! ## Programs -/

/-- The parts of a text account for everything that is wrong with its grammar. -/
structure Diagnosed (file : String) (tokens : List Token) (reading : Reading)
    (parts : List Part) : Prop where
  sound : ∀ part ∈ parts, part.Sound file
  ordered : parts.Pairwise (Part.Before file)
  placeholders :
    (parts.filterMap Part.placeholder?).Perm (Node.root reading.root).placeholders
  complaints : parts.filterMap Part.complaint? = reading.errors
  starts : ∀ start ∈ partStarts tokens reading.root.program, start ∈ parts.map Part.start

theorem placeholders_rootOf (version : Version) (qubits : Option Expr)
    (statements : List Statement) (location : Location) :
    (Node.root (Reading.rootOf (.program version qubits statements location))).placeholders =
      qubits.toList.flatMap (fun e => (Node.expr e).placeholders) ++
        statements.flatMap (fun s => (Node.statement s).placeholders) := by
  have hversion : (Node.version version).placeholders = [] := by
    rw [Node.placeholders_eq]
    rfl
  rw [Node.placeholders_eq]
  show [] ++ ([Node.program _].flatMap Node.placeholders) = _
  rw [List.nil_append, List.flatMap_singleton, Node.placeholders_eq]
  show [] ++ (Node.program (.program version qubits statements location)).children.flatMap
    Node.placeholders = _
  cases qubits <;>
    simp [Node.children, Node.fields, Field.nodes, Field.optional, hversion, List.flatMap_map]

variable {patience : Patience} {file : String} {c start : Cursor}

theorem diagnosed_ofVersion (file : String) (hpatience : patience.Endless) {before : List Token}
    (hpasses : start.Passes before c) (hstart : start.Ordered) (hended : c.Ended)
    (location : Location) (version : Version) :
    ∃ parts, Diagnosed file start.tokens (Reading.ofVersion patience file location version c)
        parts ∧
      (Reading.ofVersion patience file location version c).stop = c.last := by
  have hc := hpasses.ordered hstart
  unfold Reading.ofVersion
  dsimp only
  generalize hbroken : Parser.versionEnd.recover (fun range => [.erroneous range]) file c = broken
  obtain ⟨ts, hts⟩ : ∃ ts, c.Passes ts broken.cursor := by
    rw [← hbroken]
    exact exists_passes_recover ..
  have hpast := broken.cursor.passes_pastSeparators
  obtain ⟨us, hus⟩ := exists_passes_readQubits file broken.cursor.pastSeparators
  have hbefore := hts.trans (hpast.trans hus)
  -- The survey is put together from the end of the text, each part in front of those behind it.
  obtain ⟨statements, hsurvey, hstarts, hholes, herrors, hlast⟩ :=
    survey_readStatements file (broken.error.toList ++
        (readQubits file broken.cursor.pastSeparators).error.toList).length hpatience
      (hbefore.ordered hc) (hbefore.ended hended)
  obtain ⟨clause, hsurvey, hclauseErrors, hclauseHoles, hclause⟩ :=
    survey_readQubits (hts.ordered hc) (hts.ended hended) hsurvey
  obtain ⟨tail, hsurvey, htailErrors, htailHoles, htailStarts⟩ :=
    survey_versionEnd hc hended broken hbroken.symm hsurvey
  refine ⟨tail ++ (clause ++ statements), ⟨hsurvey.sound, hsurvey.ordered, ?_, ?_, ?_⟩, ?_⟩
  · rw [placeholders_rootOf, List.filterMap_append, List.filterMap_append, htailHoles,
      hclauseHoles, hholes, List.flatMap_append]
    -- In the tree the clause comes before the statement left of the line of the version.
    exact List.perm_append_comm_assoc ..
  · rw [List.filterMap_append, List.filterMap_append, htailErrors, hclauseErrors, herrors,
      List.append_assoc]
  · intro point hpoint
    rw [List.map_append, List.map_append, htailStarts, hstarts]
    rcases List.mem_append.1 hpoint with h | h
    · obtain ⟨count, hcount, hpoint⟩ := Option.bind_eq_some_iff.1 (Option.mem_toList.1 h)
      obtain ⟨keyword, rest, htokens, hkeyword, hmem, hfirst⟩ := hclause count hcount
      have hall := hpasses.trans (hts.trans hpast)
      have hsplit := hall.tokens_eq
      rw [htokens] at hsplit
      rw [qubitsStart?_eq hstart hsplit hkeyword hfirst] at hpoint
      cases hpoint
      exact List.mem_append_right _ (List.mem_append_left _ hmem)
    · rw [List.map_append] at h
      rcases List.mem_append.1 h with h | h
      · exact List.mem_append_left _ h
      · exact List.mem_append_right _ (List.mem_append_right _ h)
  · rw [hlast, hbefore.last_eq]

theorem placeholders_broken (range : Location) :
    (Node.root (Reading.rootOf (.erroneous range))).placeholders =
      [.program (.erroneous range)] := by
  rw [Node.placeholders_eq]
  show [] ++ ([Node.program _].flatMap Node.placeholders) = _
  rw [List.nil_append, List.flatMap_singleton, Node.placeholders_eq]
  rfl

/-- Without a readable version the whole program is one broken part. -/
theorem diagnosed_ofBrokenVersion {ts : List Token} {stuck : Cursor} (file : String)
    (tokens : List Token) (hc : c.Ordered) (hts : c.Passes ts stuck) (failure : Failure) :
    ∃ parts, Diagnosed file tokens
      (Reading.ofBrokenVersion patience file (c.current.location file) failure stuck) parts := by
  let range := (c.current.location file).through (stuck.current.location file)
  let diagnostic := Diagnostic.misplaced stuck.current failure.complaint
  refine ⟨[⟨c.current.firstPoint, some (.program (.erroneous range), diagnostic)⟩], ?_,
    List.pairwise_singleton _ _, ?_, rfl, ?_⟩
  · rintro part hpart node _ hbroken
    obtain rfl := List.mem_singleton.1 hpart
    cases hbroken
    refine ⟨?_, ?_, rfl⟩
    · show range.first = _
      rw [Location.first_through (hc.line_ne_zero file), Token.first_location]
    · show _ ≤ (stuck.current.location file).first
      rw [Token.first_location]
      exact hts.current_le hc
  · rw [Reading.ofBrokenVersion, placeholders_broken]
    exact List.Perm.refl _
  · intro start hstart
    cases hstart

/-- Whatever is wrong with the grammar of a text is accounted for, and reading ends where the text
does. -/
theorem diagnosed_ofCursor (file : String) (hpatience : patience.Endless) (hc : c.Ordered)
    (hended : c.Ended) :
    ∃ parts, Diagnosed file c.tokens (Reading.ofCursor patience file c) parts ∧
      (Reading.ofCursor patience file c).stop = c.last := by
  have hpast := c.passes_pastSeparators
  obtain ⟨ts, hts⟩ := Parser.version.passes file c.pastSeparators
  unfold Reading.ofCursor
  dsimp only
  cases hrun : Parser.version.run file c.pastSeparators with
  | ok version behind =>
    rw [hrun] at hts
    have hbefore := hpast.trans hts
    obtain ⟨parts, hparts, hstop⟩ :=
      diagnosed_ofVersion file hpatience hbefore hc (hbefore.ended hended)
        (c.pastSeparators.current.location file) version
    exact ⟨parts, hparts, hstop.trans hbefore.last_eq⟩
  | failed failure stuck =>
    rw [hrun] at hts
    obtain ⟨parts, hparts⟩ :=
      diagnosed_ofBrokenVersion file c.tokens (hpast.ordered hc) hts failure
    refine ⟨parts, hparts, ?_⟩
    -- the one complaint there is does not use up a patience without end
    have hexhausted : patience.isExhausted 1 stuck.current = false := hpatience _
    unfold Reading.ofBrokenVersion
    dsimp only
    rw [hexhausted, if_neg (by decide)]
    exact (hpast.trans hts).last_eq

/-- Complaints and placeholders belong together one by one, in the order in which they start. -/
theorem Diagnosed.matched {tokens : List Token} {reading : Reading} {parts : List Part}
    (h : Diagnosed file tokens reading parts) :
    ∃ order : List Node, order.Perm (Node.root reading.root).placeholders ∧
      (order.Pairwise fun a b => a.location.first.Before b.location.first) ∧
      List.Forall₂ (Marks file (partStarts tokens reading.root.program)) order reading.errors := by
  refine ⟨_, h.placeholders, pairwise_placeholders h.sound h.ordered, ?_⟩
  rw [← h.complaints]
  refine forall₂_placeholder_complaint fun part hpart node diagnostic hbroken => ?_
  obtain ⟨hle, hbefore⟩ := marks_of_part h.sound h.ordered hpart hbroken
  exact ⟨hle, fun start hstart => hbefore start (h.starts start hstart)⟩

end Cqasm
