import Cqasm.Proofs.Grammar.Whole
import Cqasm.Proofs.Recovery.Order

/-!
# The parts behind a version

Behind a readable version a text is read part by part: what stands in the line of the version, the
qubits clause, and the statements. Each part starts at a token, and it is either read as it should
be or a placeholder that comes with one complaint. `Survey` says so of a row of parts, and that the
complaint about a part lies within it: at or behind its start, and before all later parts.
-/

set_option autoImplicit false

namespace Cqasm

open Grammar

/-- A part of a program: where it starts, and the placeholder and the complaint if it is broken. -/
structure Part where
  start : Point
  broken : Option (Node × Diagnostic)

namespace Part

/-- The placeholder of a broken part. -/
def placeholder? (part : Part) : Option Node :=
  part.broken.map Prod.fst

/-- The complaint about a broken part. -/
def complaint? (part : Part) : Option Diagnostic :=
  part.broken.map Prod.snd

/-- A broken part starts where its placeholder does, and is complained about from there on. -/
def Sound (file : String) (part : Part) : Prop :=
  ∀ node diagnostic, part.broken = some (node, diagnostic) →
    node.location.first = part.start ∧ part.start ≤ (diagnostic.location file).first ∧
      diagnostic.isLexical = false

/-- A part is over before another one starts, and so is the complaint about it. -/
def Before (file : String) (part later : Part) : Prop :=
  part.start.Before later.start ∧
    ∀ node diagnostic, part.broken = some (node, diagnostic) →
      (diagnostic.location file).first.Before later.start

end Part

/-- A row of parts that are all still to come. -/
structure Survey (file : String) (c : Cursor) (parts : List Part) : Prop where
  sound : ∀ part ∈ parts, part.Sound file
  ordered : parts.Pairwise (Part.Before file)
  ahead : ∀ part ∈ parts, ∃ token ∈ c.tokens, part.start = token.firstPoint

namespace Survey

variable {file : String} {c behind : Cursor} {parts : List Part}

theorem nil : Survey file c [] where
  sound := by simp
  ordered := .nil
  ahead := by simp

/-- Parts that are still to come were so before. -/
theorem mono (h : Survey file behind parts) (hsubset : ∀ token ∈ behind.tokens, token ∈ c.tokens) :
    Survey file c parts where
  sound := h.sound
  ordered := h.ordered
  ahead part hpart := by
    obtain ⟨token, htoken, hstart⟩ := h.ahead part hpart
    exact ⟨token, hsubset token htoken, hstart⟩

/-- A part goes in front of parts that start further on. -/
theorem cons {part : Part} (h : Survey file behind parts) (hsound : part.Sound file)
    (hbefore : ∀ token ∈ behind.tokens, part.Before file ⟨token.firstPoint, none⟩)
    (hahead : ∃ token ∈ c.tokens, part.start = token.firstPoint)
    (hsubset : ∀ token ∈ behind.tokens, token ∈ c.tokens) : Survey file c (part :: parts) where
  sound := List.forall_mem_cons.2 ⟨hsound, h.sound⟩
  ordered := by
    refine List.pairwise_cons.2 ⟨fun later hlater => ?_, h.ordered⟩
    obtain ⟨token, htoken, hstart⟩ := h.ahead later hlater
    obtain ⟨hpart, hcomplaint⟩ := hbefore token htoken
    unfold Part.Before
    rw [hstart]
    exact ⟨hpart, hcomplaint⟩
  ahead := List.forall_mem_cons.2 ⟨hahead, (h.mono hsubset).ahead⟩

end Survey

theorem filterMap_cons_eq {α β : Type} (f : α → Option β) (a : α) (l : List α) :
    (a :: l).filterMap f = (f a).toList ++ l.filterMap f := by
  rw [List.filterMap_cons]
  cases f a <;> rfl

/-! ## One part -/

section

variable {α : Type} {p : Parser α} {placeholder : Location → α} {file : String} {c : Cursor}

theorem exists_passes_recover (p : Parser α) (placeholder : Location → α) (file : String)
    (c : Cursor) : ∃ ts, c.Passes ts (p.recover placeholder file c).cursor := by
  rcases recover_cases p placeholder file c with ⟨value, behind, hrun, h⟩ |
    ⟨failure, stuck, ts, hts, h⟩
  · obtain ⟨ts, hts⟩ := p.passes file c
    rw [hrun] at hts
    rw [h]
    exact ⟨ts, hts⟩
  · obtain ⟨us, hus⟩ := stuck.exists_passes_skipStatement failure.openBraces
    rw [h]
    exact ⟨ts ++ us, hts.trans hus⟩

/-- What is broken becomes a placeholder that starts at the token at hand, and the complaint lies
between that token and whatever comes next. -/
theorem recover_of_error (hc : c.Ordered) {diagnostic : Diagnostic}
    (h : (p.recover placeholder file c).error = some diagnostic) :
    ∃ range, (p.recover placeholder file c).value = placeholder range ∧
      range.first = c.current.firstPoint ∧
      c.current.firstPoint ≤ (diagnostic.location file).first ∧ diagnostic.isLexical = false ∧
      ∀ token ∈ (p.recover placeholder file c).cursor.pastSeparators.tokens,
        (diagnostic.location file).first.Before token.firstPoint := by
  rcases recover_cases p placeholder file c with ⟨value, behind, -, hrecover⟩ |
    ⟨failure, stuck, ts, hts, hrecover⟩
  · rw [hrecover] at h
    cases h
  · rw [hrecover] at h ⊢
    cases h
    refine ⟨_, rfl, first_rangeFrom hc, ?_, rfl, ?_⟩
    · show c.current.firstPoint ≤ (stuck.current.location file).first
      rw [Token.first_location]
      exact hts.current_le hc
    · intro token htoken
      show (stuck.current.location file).first.Before token.firstPoint
      rw [Token.first_location]
      exact ((hts.ordered hc).before_of_skipStatement htoken).firstPoint

/-- The part that reading with recovery makes of what starts at the token at hand. -/
def partOf (toNode : α → Node) (c : Cursor) (read : Recovered α) : Part :=
  { start := c.current.firstPoint
    broken := read.error.map fun diagnostic => (toNode read.value, diagnostic) }

theorem complaint?_partOf (toNode : α → Node) (c : Cursor) (read : Recovered α) :
    (partOf toNode c read).complaint? = read.error := by
  unfold Part.complaint? partOf
  cases read.error <;> rfl

/-- Reading with recovery puts a part in front of those that are read behind it, unless it succeeds
without passing anything. -/
theorem survey_recover {toNode : α → Node} {parts : List Part} (hc : c.Ordered)
    (hne : c.tokens ≠ []) (hnode : ∀ range, (toNode (placeholder range)).location = range)
    (hprogress : (p.recover placeholder file c).error = none →
      ∃ first ts, c.Passes (first :: ts) (p.recover placeholder file c).cursor)
    (hrest : Survey file (p.recover placeholder file c).cursor.pastSeparators parts) :
    Survey file c (partOf toNode c (p.recover placeholder file c) :: parts) := by
  have hsubset : ∀ token ∈ (p.recover placeholder file c).cursor.pastSeparators.tokens,
      token ∈ c.tokens := by
    intro token htoken
    obtain ⟨ts, hts⟩ := exists_passes_recover p placeholder file c
    rw [hts.tokens_eq]
    exact List.mem_append_right _ (Cursor.mem_of_mem_pastSeparators htoken)
  refine hrest.cons ?_ ?_ ⟨c.current, ?_, rfl⟩ hsubset
  · intro node diagnostic hbroken
    obtain ⟨diagnostic', herror, heq⟩ := Option.map_eq_some_iff.1 hbroken
    cases heq
    obtain ⟨range, hvalue, hfirst, hle, hlexical, -⟩ := recover_of_error hc herror
    rw [hvalue, hnode]
    exact ⟨hfirst, hle, hlexical⟩
  · intro token htoken
    -- Without a complaint a token was passed, and a complaint is about a token in between.
    cases herror : (p.recover placeholder file c).error with
    | none =>
      obtain ⟨first, ts, hts⟩ := hprogress herror
      have hmem := Cursor.mem_of_mem_pastSeparators htoken
      have hbefore := hts.before hc List.mem_cons_self (List.mem_append_left _ hmem)
      rw [← hts.current_eq] at hbefore
      refine ⟨hbefore.firstPoint, fun node diagnostic hbroken => ?_⟩
      rw [partOf, herror] at hbroken
      cases hbroken
    | some diagnostic =>
      obtain ⟨range, -, -, hle, -, hbefore⟩ := recover_of_error hc herror
      refine ⟨Point.before_of_le_of_before hle (hbefore token htoken), ?_⟩
      intro node diagnostic' hbroken
      rw [partOf, herror] at hbroken
      cases hbroken
      exact hbefore token htoken
  · cases h : c.tokens with
    | nil => exact absurd h hne
    | cons first tokens =>
      rw [Cursor.current_of_cons h]
      exact List.mem_cons_self

end

/-! ## Statements -/

theorem placeholders_erroneous (range : Location) :
    (Node.statement (.erroneous range)).placeholders = [.statement (.erroneous range)] := by
  rw [Node.placeholders_eq]
  rfl

section

variable {patience : Patience} {file : String} {complaints : Nat} {c : Cursor}

/-- What is read at the start of a statement is the statement or a placeholder, in either case from
the token at hand on. -/
theorem recovered_statement (hc : c.Ordered) (hended : c.Ended)
    (read : Recovered Statement)
    (hread : read = (Parser.terminated Parser.statement).recover .erroneous file c) :
    read.value.location.first = c.current.firstPoint ∧
      (Node.statement read.value).placeholders =
        (partOf .statement c read).placeholder?.toList ∧
      (read.error = none → ∃ first ts, c.Passes (first :: ts) read.cursor) := by
  subst hread
  cases herror : ((Parser.terminated Parser.statement).recover .erroneous file c).error with
  | none =>
    obtain ⟨hrun, -⟩ := Parser.run_terminated_eq_ok.1 (Parser.run_of_recover herror)
    obtain ⟨ts, hts, hstatement⟩ := Parser.statement_recognises.sound hended hrun
    have hwhole := yields_statement hstatement
    have hlocation := location_of_isStatement hstatement
    obtain ⟨token, us, rfl, hkind, -⟩ := begins_statement hstatement
    have hline := hc.line_ne_zero file
    rw [hts.current_eq] at hline ⊢
    refine ⟨?_, ?_, fun _ => ⟨token, us, hts⟩⟩
    · rw [hlocation, first_rangeOf hkind hline]
    · rw [partOf, herror]
      exact hwhole
  | some diagnostic =>
    obtain ⟨range, hvalue, hfirst, -⟩ := recover_of_error hc herror
    refine ⟨?_, ?_, fun h => by cases h⟩
    · rw [hvalue, ← hfirst]
      rfl
    · rw [partOf, herror, hvalue]
      exact placeholders_erroneous range

/-- The statements of a text are parts, and reading them leads to the end of the text. -/
theorem survey_readStatements (file : String) (complaints : Nat) (hpatience : patience.Endless)
    (hc : c.Ordered) (hended : c.Ended) :
    ∃ parts, Survey file c.pastSeparators parts ∧
      parts.map Part.start =
        (readStatements patience file complaints c).statements.map (·.location.first) ∧
      parts.filterMap Part.placeholder? =
        (readStatements patience file complaints c).statements.flatMap
          (fun s => (Node.statement s).placeholders) ∧
      parts.filterMap Part.complaint? = (readStatements patience file complaints c).errors ∧
      (readStatements patience file complaints c).cursor.current = c.last := by
  fun_induction readStatements patience file complaints c with
  | case1 complaints c h =>
    refine ⟨[], .nil, rfl, rfl, rfl, ?_⟩
    dsimp only
    rw [Cursor.current, h]
    exact c.passes_pastSeparators.last_eq
  | case2 complaints c token tokens h hexhausted =>
    rw [Patience.isExhausted, hpatience] at hexhausted
    cases hexhausted
  | case3 complaints c token tokens h hexhausted read rest ih =>
    have hpast := c.passes_pastSeparators
    have hc' := hpast.ordered hc
    have hended' := hpast.ended hended
    obtain ⟨ts, hts⟩ := exists_passes_recover (Parser.terminated Parser.statement) .erroneous file
      c.pastSeparators
    obtain ⟨parts, hsurvey, hstarts, hplaceholders, herrors, hlast⟩ :=
      ih (hts.ordered hc') (hts.ended hended')
    obtain ⟨hfirst, hplaceholder, hprogress⟩ := recovered_statement hc' hended' read rfl
    -- The part of this statement goes in front of those behind it, which all start further on.
    refine ⟨partOf .statement c.pastSeparators read :: parts, ?_, ?_, ?_, ?_, ?_⟩
    · exact survey_recover hc' (by simp [h]) (fun _ => rfl) hprogress hsurvey
    · rw [List.map_cons, List.map_cons, hstarts, hfirst]
      rfl
    · rw [filterMap_cons_eq, List.flatMap_cons, hplaceholder, hplaceholders]
    · rw [filterMap_cons_eq, complaint?_partOf, herrors]
    · rw [hlast, hts.last_eq, hpast.last_eq]

end

end Cqasm
