import Cqasm.Proofs.Diagnosis
import Cqasm.Proofs.Recovery.Extent

/-!
# Every token belongs to one part of a program

Whatever is read behind a version, well-formed or broken, is read from a row of tokens of its own,
and between two rows there are only separators (`Tiles`). As the range of a part is that of its row,
each token lies in the range of exactly one part, and each range ends where tokens do
(`tokens_claimed_once`).
-/

set_option autoImplicit false

namespace Cqasm

open Grammar

/-! ## What a program claims -/

/-- One range contains another one. -/
def Location.Covers (range inner : Location) : Prop :=
  range.file = inner.file ∧ range.first ≤ inner.first ∧ inner.last ≤ range.last

instance (range inner : Location) : Decidable (range.Covers inner) :=
  inferInstanceAs (Decidable (_ ∧ _))

/-- The range of a qubits clause from the start of its keyword to the end of its count. -/
def clauseRange (file : String) (count : Expr) (first : Point) : Location :=
  { file, first, last := count.location.last }

/-- The ranges of the parts of a program: those of its version, of its qubits clause and of its
statements. -/
def partRanges (file : String) (tokens : List Token) : Program → List Location
  | .program version qubits statements _ =>
    version.location ::
      ((qubits.bind fun count => (qubitsStart? tokens count).map (clauseRange file count)).toList ++
        statements.map (·.location))
  | .erroneous _ => []

namespace Grammar

variable {file : String} {row : List Token} {range : Location} {token : Token}

/-- Behind the last solid token of a row there is no other one. -/
theorem Rises.last_le_lastSolid {last : Token} (h : Rises file row)
    (hlast : lastSolid? row = some last) (hmem : token ∈ row)
    (hkind : token.kind.isSeparator = false) :
    (token.location file).last ≤ (last.location file).last := by
  obtain ⟨before, hsplit⟩ := List.getLast?_eq_some_iff.1 hlast
  have hsolid : token ∈ before ++ [last] := by
    rw [← hsplit]
    exact List.mem_filter.2 ⟨hmem, by simp [hkind]⟩
  have hrises : Rises file (before ++ [last]) := by
    rw [← hsplit]
    exact h.sublist (List.filter_sublist ..)
  rcases List.mem_append.1 hsolid with hbefore | hlast
  · exact hrises.last_le hbefore (List.mem_singleton.2 rfl)
  · obtain rfl := List.mem_singleton.1 hlast
    exact Point.le_refl _

/-- The range of a row contains those of its tokens up to where the last solid one ends. -/
theorem Span.covers_of_le {later : Token} (h : Span file row range) (hrises : Rises file row)
    (hmem : token ∈ row) (hlater : later ∈ row) (hkind : later.kind.isSeparator = false)
    (hle : (token.location file).last ≤ (later.location file).last) :
    range.Covers (token.location file) := by
  obtain @⟨first, last, rest, -, hlast⟩ := h
  refine ⟨?_, ?_, Point.le_trans hle (hrises.last_le_lastSolid hlast hlater hkind)⟩
  · rw [token.location_eq]
  · rw [Token.first_location]
    rcases List.mem_cons.1 hmem with rfl | hmem
    · exact Point.le_refl _
    · exact Point.le_trans (first.first_le_last file)
        ((List.pairwise_cons.1 hrises.apart).1 token hmem).le

/-- The range of a row contains those of its tokens, separators apart. -/
theorem Span.covers (h : Span file row range) (hrises : Rises file row) (hmem : token ∈ row)
    (hkind : token.kind.isSeparator = false) : range.Covers (token.location file) :=
  h.covers_of_le hrises hmem hmem hkind (Point.le_refl _)

/-- It does not reach up to tokens behind the row. -/
theorem Span.not_covers_behind (h : Span file row range)
    (hbehind : ∀ t ∈ row, (t.location file).last.Before token.firstPoint) :
    ¬range.Covers (token.location file) := by
  obtain @⟨first, last, rest, -, hlast⟩ := h
  rintro ⟨-, -, hle⟩
  exact (hbehind last (mem_of_lastSolid? hlast).1).not_le
    (Point.le_trans (token.first_le_last file) hle)

/-- And it does not reach back to tokens in front of the row. -/
theorem Span.not_covers_ahead (h : Span file row range)
    (hahead : ∀ t ∈ row, (token.location file).last.Before t.firstPoint) :
    ¬range.Covers (token.location file) := by
  obtain @⟨first, last, rest, -, -⟩ := h
  rintro ⟨-, hle, -⟩
  rw [Token.first_location] at hle
  exact (hahead first List.mem_cons_self).not_le
    (Point.le_trans hle (token.first_le_last file))

end Grammar

/-! ## Rows between separators -/

/-- A row of tokens made up of smaller rows with separators around them. Each of these begins with a
token that is no separator. -/
inductive Tiles : List Token → List (List Token) → Prop
  | nil {seps : List Token} : Separators seps → Tiles seps []
  | cons {seps row ts : List Token} {first : Token} {rows : List (List Token)} :
      Separators seps → first.kind.isSeparator = false → Tiles ts rows →
      Tiles (seps ++ first :: (row ++ ts)) ((first :: row) :: rows)

namespace Tiles

variable {ts us row : List Token} {first token : Token} {rows rows' : List (List Token)}
  {file : String}

theorem single (h : first.kind.isSeparator = false) : Tiles (first :: row) [first :: row] := by
  have hnone : Separators [] := by simp [Separators]
  have htiles : Tiles ([] ++ first :: (row ++ [])) [first :: row] := .cons hnone h (.nil hnone)
  simpa using htiles

theorem append (h : Tiles ts rows) (h' : Tiles us rows') : Tiles (ts ++ us) (rows ++ rows') := by
  induction h with
  | @nil seps hseps =>
    -- Separators in front of the first row go with those that are there already.
    cases h' with
    | nil hseps' => exact .nil (List.forall_mem_append.2 ⟨hseps, hseps'⟩)
    | cons hseps' hfirst hrest =>
      rw [← List.append_assoc]
      exact .cons (List.forall_mem_append.2 ⟨hseps, hseps'⟩) hfirst hrest
  | cons hseps hfirst _ ih =>
    rw [List.append_assoc, List.cons_append, List.append_assoc]
    exact .cons hseps hfirst ih

theorem sublist (h : Tiles ts rows) (hrow : row ∈ rows) :
    row.Sublist ts ∧ ∃ first rest, row = first :: rest ∧ first.kind.isSeparator = false := by
  induction h with
  | nil => cases hrow
  | @cons seps row' ts first rows hseps hfirst _ ih =>
    rcases List.mem_cons.1 hrow with rfl | hrow
    · refine ⟨?_, first, row', rfl, hfirst⟩
      exact (List.sublist_append_left (first :: row') ts).trans (List.sublist_append_right seps _)
    · obtain ⟨hsublist, hhead⟩ := ih hrow
      refine ⟨hsublist.trans ?_, hhead⟩
      exact (List.sublist_append_right (seps ++ first :: row') ts).trans (by simp)

theorem span (h : Tiles ts rows) (hrises : Rises file ts) (hrow : row ∈ rows) :
    Span file row (rangeOf file row) := by
  obtain ⟨hsublist, first, rest, rfl, hfirst⟩ := h.sublist hrow
  exact span_rangeOf hfirst (hrises.sublist hsublist)

/-- Each token lies in the range of its own row and in that of no other row. -/
theorem countP_covers (h : Tiles ts rows) (hrises : Rises file ts) (hmem : token ∈ ts)
    (hkind : token.kind.isSeparator = false) :
    (rows.map (rangeOf file)).countP (·.Covers (token.location file)) = 1 := by
  induction h with
  | nil hseps =>
    rw [hseps token hmem] at hkind
    cases hkind
  | @cons seps row ts first rows hseps hfirst hrest ih =>
    have hrow : Rises file ((first :: row) ++ ts) := hrises.right
    have hspan : Span file (first :: row) (rangeOf file (first :: row)) :=
      span_rangeOf hfirst hrow.left
    have happart := (List.pairwise_append.1 hrow.apart).2.2
    rw [List.map_cons]
    rcases List.mem_append.1 hmem with hsep | hmem
    · rw [hseps token hsep] at hkind
      cases hkind
    -- The token is in the first row, and then in no later one, or behind it.
    rcases List.mem_append.1 (show token ∈ (first :: row) ++ ts from hmem) with hmem | hmem
    · rw [List.countP_cons_of_pos (by simpa using hspan.covers hrow.left hmem hkind)]
      refine congrArg Nat.succ (List.countP_eq_zero.2 fun range hrange => ?_)
      obtain ⟨later, hlater, rfl⟩ := List.mem_map.1 hrange
      have hnot := (hrest.span hrow.right hlater).not_covers_ahead fun t ht =>
        happart token hmem t ((hrest.sublist hlater).1.mem ht)
      simpa using hnot
    · have hnot := hspan.not_covers_behind fun t ht => happart t ht token hmem
      rw [List.countP_cons_of_neg (by simpa using hnot)]
      exact ih hrow.right hmem

end Tiles

/-! ## Reading row by row -/

/-- What was read on the way from one cursor to another one has the given ranges: they are those of
rows that make up what was passed. -/
inductive Claims (file : String) (c behind : Cursor) : List Location → Prop
  | mk {ts : List Token} {rows : List (List Token)} :
      c.Passes ts behind → Tiles ts rows → Claims file c behind (rows.map (rangeOf file))

namespace Claims

variable {file : String} {c middle behind : Cursor} {ranges ranges' : List Location}
  {ts : List Token} {first : Token}

theorem nil (h : c.Passes ts behind) (hseps : Separators ts) : Claims file c behind [] :=
  .mk h (.nil hseps)

theorem row (h : c.Passes (first :: ts) behind) (hfirst : first.kind.isSeparator = false) :
    Claims file c behind [rangeOf file (first :: ts)] :=
  .mk h (.single hfirst)

theorem append (h : Claims file c middle ranges) (h' : Claims file middle behind ranges') :
    Claims file c behind (ranges ++ ranges') := by
  obtain ⟨hpasses, hrows⟩ := h
  obtain ⟨hpasses', hrows'⟩ := h'
  rw [← List.map_append]
  exact .mk (hpasses.trans hpasses') (hrows.append hrows')

theorem pastSeparators (h : Claims file c.pastSeparators behind ranges) :
    Claims file c behind ranges :=
  (nil c.passes_pastSeparators (Cursor.separators_takeWhile _)).append h

end Claims

section

variable {α : Type} {p : Parser α} {placeholder : Location → α} {file : String} {c : Cursor}
  {token : Token} {tokens : List Token}

/-- In front of a token that is no separator, a skip passes it. -/
theorem Cursor.exists_passes_skipStatement_of_cons (opened : Nat) (h : c.tokens = token :: tokens)
    (hkind : token.kind.isSeparator = false) :
    ∃ skipped, c.Passes (token :: skipped) (c.skipStatement opened) := by
  obtain ⟨skipped, hskipped⟩ :=
    c.exists_passes_skip (bracesBehind opened token.kind) (passed c.previous token) tokens
  have hskip : c.skipStatement opened =
      skipStatement.skip c (bracesBehind opened token.kind) (passed c.previous token) tokens := by
    unfold skipStatement
    rw [h, skipStatement.skip, hkind, Bool.and_false, if_neg (by decide)]
  have hstep : c.Passes [token] { c with previous := passed c.previous token, tokens } :=
    ⟨h, rfl, rfl⟩
  rw [hskip]
  exact ⟨skipped, hstep.trans hskipped⟩

/-- What is broken is a row of tokens, and its placeholder has the range of the row. -/
theorem exists_row_of_error (h : c.tokens = token :: tokens)
    (hkind : token.kind.isSeparator = false)
    (herror : (p.recover placeholder file c).error ≠ none) :
    ∃ ts, c.Passes (token :: ts) (p.recover placeholder file c).cursor ∧
      (p.recover placeholder file c).value = placeholder (rangeOf file (token :: ts)) := by
  rcases recover_cases p placeholder file c with ⟨value, behind, -, hread⟩ |
    ⟨failure, stuck, ts, hts, hread⟩
  · rw [hread] at herror
    exact absurd rfl herror
  · rw [hread]
    -- If reading failed at the first token, it is skipped.
    have hrow : ∃ us, c.Passes (token :: us) (stuck.skipStatement failure.openBraces) := by
      cases ts with
      | nil =>
        obtain rfl := hts.eq_of_nil
        exact Cursor.exists_passes_skipStatement_of_cons _ h hkind
      | cons first ts =>
        obtain ⟨skipped, hskipped⟩ := stuck.exists_passes_skipStatement failure.openBraces
        cases h.symm.trans hts.tokens_eq
        exact ⟨_, hts.trans hskipped⟩
    obtain ⟨us, hus⟩ := hrow
    exact ⟨us, hus, congrArg placeholder (hus.rangeFrom_eq file hkind)⟩

end

section

variable {patience : Patience} {file : String} {c start : Cursor} {token : Token}
  {tokens : List Token}

/-- A statement is read from a row of tokens, or what is broken is. -/
theorem exists_row_statement (hended : c.Ended) (h : c.tokens = token :: tokens)
    (hkind : token.kind.isSeparator = false) :
    let read := (Parser.terminated Parser.statement).recover .erroneous file c
    ∃ first ts, c.Passes (first :: ts) read.cursor ∧ first.kind.isSeparator = false ∧
      (IsStatement file (first :: ts) read.value ∨
        read.value = .erroneous (rangeOf file (first :: ts))) := by
  intro read
  cases herror : read.error with
  | none =>
    obtain ⟨hrun, -⟩ := Parser.run_terminated_eq_ok.1 (Parser.run_of_recover herror)
    obtain ⟨ts, hts, hstatement⟩ := Parser.statement_recognises.sound hended hrun
    obtain ⟨first, us, rfl, hfirst, -⟩ := begins_statement hstatement
    exact ⟨first, us, hts, hfirst, .inl hstatement⟩
  | some diagnostic =>
    obtain ⟨ts, hts, hvalue⟩ := exists_row_of_error h hkind (by rw [herror]; simp)
    exact ⟨token, ts, hts, hkind, .inr hvalue⟩

theorem claims_statement (hended : c.Ended) (h : c.tokens = token :: tokens)
    (hkind : token.kind.isSeparator = false) :
    let read := (Parser.terminated Parser.statement).recover .erroneous file c
    Claims file c read.cursor [read.value.location] := by
  intro read
  obtain ⟨first, ts, hts, hfirst, hvalue⟩ := exists_row_statement hended h hkind
  have hrange : read.value.location = rangeOf file (first :: ts) := by
    rcases hvalue with hstatement | hvalue
    · exact location_of_isStatement hstatement
    · rw [hvalue]
      rfl
  rw [hrange]
  exact .row hts hfirst

theorem claims_readStatements (file : String) (complaints : Nat) (hpatience : patience.Endless)
    (hended : c.Ended) :
    let body := readStatements patience file complaints c
    Claims file c body.cursor (body.statements.map (·.location)) ∧ body.cursor.tokens = [] := by
  fun_induction readStatements patience file complaints c with
  | case1 complaints c h =>
    exact ⟨.nil c.passes_pastSeparators (Cursor.separators_takeWhile _), h⟩
  | case2 complaints c token tokens h hexhausted =>
    rw [Patience.isExhausted, hpatience] at hexhausted
    cases hexhausted
  | case3 complaints c token tokens h hexhausted read rest ih =>
    have hended' := c.passes_pastSeparators.ended hended
    have hkind := Cursor.isSeparator_of_pastSeparators h
    obtain ⟨ts, hts⟩ := exists_passes_recover (Parser.terminated Parser.statement) .erroneous file
      c.pastSeparators
    obtain ⟨hrest, hnil⟩ := ih (hts.ended hended')
    exact ⟨((claims_statement hended' h hkind).append hrest).pastSeparators, hnil⟩

/-- Behind a version nothing is read, or a row of tokens that does not belong there. -/
theorem cases_versionEnd (file : String) (hended : c.Ended) :
    let read := Parser.versionEnd.recover (fun range => [.erroneous range]) file c
    read.value = [] ∧ read.cursor = c ∨
      ∃ first ts, c.Passes (first :: ts) read.cursor ∧ first.kind.isSeparator = false ∧
        read.value = [.erroneous (rangeOf file (first :: ts))] := by
  intro read
  by_cases hend : c.kind.endsStatement
  · rw [show read = _ from Parser.recover_of_ok _ (run_versionEnd_eq_ok.2 ⟨hend, rfl, rfl⟩)]
    exact .inl ⟨rfl, rfl⟩
  · have hkind : c.kind ≠ .eof := by
      intro heof
      rw [heof] at hend
      exact hend rfl
    have hcurrent := Cursor.passes_current hended rfl hkind
    have hsolid : c.current.kind.isSeparator = false := by
      rw [← Bool.not_eq_true]
      exact fun hsep => hend (Kind.endsStatement_of_isSeparator hsep)
    have herror : read.error ≠ none := fun hnone =>
      hend (run_versionEnd_eq_ok.1 (Parser.run_of_recover hnone)).1
    obtain ⟨ts, hts, hvalue⟩ := exists_row_of_error hcurrent.tokens_eq hsolid herror
    exact .inr ⟨_, ts, hts, hsolid, hvalue⟩

theorem claims_versionEnd (file : String) (hended : c.Ended) :
    let read := Parser.versionEnd.recover (fun range => [.erroneous range]) file c
    Claims file c read.cursor (read.value.map (·.location)) := by
  intro read
  rcases cases_versionEnd file hended with ⟨hvalue, hcursor⟩ | ⟨first, ts, hts, hfirst, hvalue⟩
  · rw [show read.value = _ from hvalue, show read.cursor = _ from hcursor]
    exact .nil c.passes_nil (by simp [Separators])
  · rw [show read.value = _ from hvalue]
    exact .row hts hfirst

/-- A qubits clause is read from its keyword and the row of its count, or it is broken. -/
theorem cases_readQubits (file : String) (hended : c.Ended) :
    let read := readQubits file c
    read.value = none ∧ read.cursor = c ∨
      c.kind = .qubits ∧ ∃ count ts, read.value = some count ∧
        c.Passes (c.current :: ts) read.cursor ∧
          (IsExpr file ts count ∨ count = .erroneous (rangeOf file (c.current :: ts))) := by
  unfold readQubits
  by_cases hkind : c.kind = .qubits
  · rw [if_pos hkind]
    intro read
    refine .inr ⟨hkind, ?_⟩
    have hkeyword := Cursor.passes_current hended hkind (by decide)
    -- Read to its end the clause is an expression; otherwise its placeholder covers what was
    -- skipped.
    cases herror : read.error with
    | none =>
      obtain ⟨hrun, -⟩ := Parser.run_terminated_eq_ok.1 (Parser.run_of_recover herror)
      rw [Parser.qubits, Parser.run_advance_bind] at hrun
      obtain ⟨e, behind, he, hrun⟩ := Parser.run_bind_eq_ok.1 hrun
      obtain ⟨hvalue, hbehind⟩ := Parser.run_pure_eq_ok.1 hrun
      obtain ⟨ts, hts, he⟩ := Parser.expression_recognises.sound (hkeyword.ended hended) he
      rw [hbehind] at hts
      exact ⟨e, ts, hvalue.symm, hkeyword.trans hts, .inl he⟩
    | some diagnostic =>
      have hsolid : c.current.kind.isSeparator = false := by
        rw [show c.current.kind = _ from hkind]
        rfl
      obtain ⟨ts, hts, hvalue⟩ := exists_row_of_error hkeyword.tokens_eq hsolid
        (show read.error ≠ none by rw [herror]; simp)
      exact ⟨_, ts, hvalue, hts, .inr rfl⟩
  · rw [if_neg hkind]
    exact .inl ⟨rfl, rfl⟩

/-- The clause is read from its keyword to the end of its count. -/
theorem claims_readQubits (hended : c.Ended) (hrises : Rises file c.pastSeparators.tokens) :
    let read := readQubits file c.pastSeparators
    Claims file c.pastSeparators read.cursor
      (read.value.map (clauseRange file · c.pastSeparators.current.firstPoint)).toList := by
  have hended' := c.passes_pastSeparators.ended hended
  intro read
  rcases cases_readQubits file hended' with
    ⟨hvalue, hcursor⟩ | ⟨hkind, count, ts, hvalue, hts, hcount⟩
  · rw [show read.value = _ from hvalue, show read.cursor = _ from hcursor]
    exact .nil c.pastSeparators.passes_nil (by simp [Separators])
  · have hsolid : c.pastSeparators.current.kind.isSeparator = false := by
      rw [show c.pastSeparators.current.kind = _ from hkind]
      rfl
    have hrises' : Rises file (c.pastSeparators.current :: ts) := by
      rw [hts.tokens_eq] at hrises
      exact hrises.left
    have hspan := span_rangeOf hsolid hrises'
    -- The claim starts at the keyword, in front of the expression that the tree keeps.
    have hclause : clauseRange file count c.pastSeparators.current.firstPoint =
        rangeOf file (c.pastSeparators.current :: ts) := by
      rcases hcount with he | rfl
      · refine Span.eq ?_ hspan
        have hinner := spans_expression _ he (hrises'.sublist (List.sublist_cons_self ..))
        rw [clauseRange]
        generalize count.location = range at hinner
        obtain ⟨-, hlast⟩ := hinner
        exact .mk hsolid (lastSolid?_append [_] hlast)
      · rw [clauseRange]
        generalize rangeOf file (c.pastSeparators.current :: ts) = range at hspan
        obtain ⟨-, -⟩ := hspan
        rfl
    rw [show read.value = _ from hvalue, Option.map_some, Option.toList_some, hclause]
    exact .row hts hsolid

/-- Where the clause starts in its text can be told from its count. -/
theorem qubitsStart?_readQubits {ts : List Token} {count : Expr} (hstart : start.Ordered)
    (hpasses : start.Passes ts c.pastSeparators) (hended : c.pastSeparators.Ended)
    (hcount : (readQubits file c.pastSeparators).value = some count) :
    qubitsStart? start.tokens count = some c.pastSeparators.current.firstPoint := by
  unfold readQubits at hcount
  by_cases hkind : c.pastSeparators.kind = .qubits
  · rw [if_pos hkind] at hcount
    obtain ⟨e, hvalue, -, -, hfirst⟩ :=
      recovered_qubits (hpasses.ordered hstart) hended hkind _ rfl
    cases hvalue.symm.trans hcount
    have htokens := (Cursor.passes_current hended hkind (by decide)).tokens_eq
    have hsplit := hpasses.tokens_eq
    rw [htokens, List.singleton_append] at hsplit
    refine qubitsStart?_eq hstart hsplit hkind (hfirst.imp_right ?_)
    rintro ⟨token, later, hlater, hne, hfirst⟩
    exact ⟨token, later, List.tail_eq_of_cons_eq (htokens.symm.trans hlater), hne, hfirst⟩
  · rw [if_neg hkind] at hcount
    cases hcount

end

namespace Reading

variable {patience : Patience} {file : String} {c : Cursor} {version : Version}
  {qubits : Option Expr} {statements : List Statement} {range : Location}

/-- Behind a version the parts are read row by row. In the tree the clause comes before a statement
that is left of the line of the version. -/
theorem claims_ofVersion {start : Cursor} {ts : List Token} (location : Location)
    (version : Version) (hpatience : patience.Endless) (hpasses : start.Passes ts c)
    (hstart : start.Ordered) (hended : c.Ended) (hrises : Rises file start.tokens) :
    ∃ behind ranges qubits statements range, Claims file c behind ranges ∧ behind.tokens = [] ∧
      (ofVersion patience file location version c).root.program =
        .program version qubits statements range ∧
      (partRanges file start.tokens (.program version qubits statements range)).Perm
        (version.location :: ranges) := by
  unfold ofVersion
  dsimp only
  have hversion := claims_versionEnd file hended
  generalize hbroken : Parser.versionEnd.recover (fun range => [.erroneous range]) file c = broken
    at hversion ⊢
  obtain ⟨us, hus⟩ : ∃ us, c.Passes us broken.cursor := by
    rw [← hbroken]
    exact exists_passes_recover ..
  have hhead := hpasses.trans (hus.trans broken.cursor.passes_pastSeparators)
  have hrest : Rises file broken.cursor.pastSeparators.tokens := by
    rw [hhead.tokens_eq] at hrises
    exact hrises.right
  have hqubits := claims_readQubits (hus.ended hended) hrest
  obtain ⟨vs, hvs⟩ := exists_passes_readQubits file broken.cursor.pastSeparators
  have hended' := (hus.trans (broken.cursor.passes_pastSeparators.trans hvs)).ended hended
  obtain ⟨hbody, hnil⟩ := claims_readStatements file
    (broken.error.toList ++
      (readQubits file broken.cursor.pastSeparators).error.toList).length hpatience hended'
  -- The tree forgets where the clause began. There is only one keyword `qubits` that it can have
  -- been.
  have hclause : ((readQubits file broken.cursor.pastSeparators).value.bind fun count =>
        (qubitsStart? start.tokens count).map (clauseRange file count)).toList =
      ((readQubits file broken.cursor.pastSeparators).value.map
        (clauseRange file · broken.cursor.pastSeparators.current.firstPoint)).toList := by
    cases hvalue : (readQubits file broken.cursor.pastSeparators).value with
    | none => rfl
    | some count =>
      rw [Option.bind_some, Option.map_some,
        qubitsStart?_readQubits hstart hhead
          (broken.cursor.passes_pastSeparators.ended (hus.ended hended)) hvalue]
      rfl
  refine ⟨_, _, _, _, _, hversion.append (hqubits.pastSeparators.append hbody), hnil, rfl, ?_⟩
  rw [partRanges, hclause, List.map_append]
  exact (List.perm_append_comm_assoc ..).cons _

/-- The parts of a program have the ranges of rows that make up its text. -/
theorem claims_ofCursor (hpatience : patience.Endless) (hc : c.Ordered) (hended : c.Ended)
    (hrises : Rises file c.tokens)
    (hprogram : (ofCursor patience file c).root.program =
      .program version qubits statements range) :
    ∃ rows, Tiles c.tokens rows ∧
      (partRanges file c.tokens (.program version qubits statements range)).Perm
        (rows.map (rangeOf file)) := by
  have hpast := c.passes_pastSeparators
  unfold ofCursor at hprogram
  dsimp only at hprogram
  -- without a version there is no program of this form
  cases hrun : Parser.version.run file c.pastSeparators with
  | failed failure stuck =>
    rw [hrun] at hprogram
    cases hprogram
  | ok v middle =>
    rw [hrun] at hprogram
    obtain ⟨_, hhead, keyword, number, rfl, hkeyword, hnumber, hv⟩ :=
      version_recognises.sound (hpast.ended hended) hrun
    have hbefore := hpast.trans hhead
    obtain ⟨behind, ranges, qubits, statements, range, hclaims, hnil, hroot, hperm⟩ :=
      claims_ofVersion (c.pastSeparators.current.location file) v hpatience hbefore hc
        (hbefore.ended hended) hrises
    cases hroot.symm.trans hprogram
    have hrow : Claims file c middle [version.location] := by
      rw [hv]
      exact .pastSeparators (.row hhead (by rw [hkeyword]; rfl))
    have hall := hrow.append hclaims
    rw [List.singleton_append] at hall
    generalize version.location :: ranges = all at hall hperm
    obtain @⟨ts, rows, hpasses, hrows⟩ := hall
    rw [hpasses.tokens_eq, hnil, List.append_nil] at hperm ⊢
    exact ⟨rows, hrows, hperm⟩

end Reading

/-! ## Texts -/

variable {settings : Settings} {file text : String}

/-- A token that is over where another one starts, or before, ends in front of it. -/
theorem Token.last_before {a b : Token} (file : String) (hstart : a.start.Before b.start)
    (hstop : b.start = a.stop ∨ a.stop.Before b.start) :
    (a.location file).last.Before b.firstPoint := by
  have hfirst : a.firstPoint.Before b.firstPoint := hstart.firstPoint
  have hlast : a.lastPoint.Before b.firstPoint := by
    unfold Point.Before Token.lastPoint Token.firstPoint
    dsimp only
    rcases hstop with h | h
    · rw [h]
      omega
    · have hreading := h.reading
      omega
  have hmax {p : Point} (hp : p.Before b.firstPoint) :
      (max a.firstPoint p).Before b.firstPoint := by
    rcases Point.max_eq_or a.firstPoint p with h | h <;> rwa [h]
  unfold Token.location
  split
  · exact hmax hfirst
  · exact hmax hfirst
  · exact hmax hlast

/-- The tokens of a text stand one behind the other. -/
theorem rises_tokens (file text : String) : Rises file (streamOf text).tokens where
  apart := by
    have hplaces := (Item.pairwise_ofLexemes .start (Lexeme.cut text.toList)).and
      (Item.pairwise_stop_ofLexemes .start (Lexeme.cut text.toList))
    refine hplaces.filterMap Item.token? ?_
    rintro a b ⟨hstart, hstop⟩ t ht u hu
    cases a <;> cases ht
    cases b <;> cases hu
    exact Token.last_before file hstart (hstop t rfl)
  line_pos token htoken := by
    have := (ordered_ofStream text).line_pos token (List.mem_append_left _ htoken)
    show (0 : Int) < token.start.line
    omega

/-- Where a program is read, each token lies in the range of its version, of its qubits clause or of
one of its statements, and of no other of them. A statement begins and ends as tokens do. -/
theorem tokens_claimed_once {root : Root} {version : Version} {qubits : Option Expr}
    {statements : List Statement} {range : Location}
    (h : (parseSession settings (.string text file)).errors.aborted = false)
    (hroot : (parseText settings file text).root = some root)
    (hprogram : root.program = .program version qubits statements range) :
    let tokens := (streamOf text).tokens.filter (!·.kind.isSeparator)
    (∀ token ∈ tokens,
        (partRanges file (streamOf text).tokens root.program).countP
          (·.Covers (token.location file)) = 1) ∧
      ∀ s ∈ statements,
        (∃ first ∈ tokens, s.location.first = (first.location file).first) ∧
          ∃ last ∈ tokens, s.location.last = (last.location file).last := by
  intro tokens
  obtain ⟨hreading, -⟩ := parse_of_not_aborted h
  have hwhole : (wholeReading file text).root = root := by
    rw [parseText_root, hreading] at hroot
    exact Option.some_inj.1 hroot
  rw [← hwhole] at hprogram
  have hrises := rises_tokens file text
  obtain ⟨rows, htiles, hperm⟩ := Reading.claims_ofCursor (endless_patience text)
    (ordered_ofStream text) (ended_ofStream text) hrises hprogram
  have hmem {token : Token} : token ∈ tokens ↔
      token ∈ (streamOf text).tokens ∧ token.kind.isSeparator = false := by
    simp [tokens]
  rw [← hwhole, hprogram]
  constructor
  · intro token htoken
    obtain ⟨htoken, hkind⟩ := hmem.1 htoken
    exact (hperm.countP_eq _).trans (htiles.countP_covers hrises htoken hkind)
  -- a statement's range is one of the rows', so it ends as the row does
  · intro s hs
    have hclaimed : s.location ∈ partRanges file (streamOf text).tokens
        (.program version qubits statements range) :=
      List.mem_cons_of_mem _ (List.mem_append_right _ (List.mem_map_of_mem hs))
    obtain ⟨row, hrow, heq⟩ := List.mem_map.1 (hperm.mem_iff.1 hclaimed)
    have hspan := htiles.span hrises hrow
    have hsublist := (htiles.sublist hrow).1
    rw [heq] at hspan
    generalize s.location = place at hspan
    obtain @⟨first, last, rest, hfirst, hlast⟩ := hspan
    obtain ⟨hlastMem, hlastKind⟩ := mem_of_lastSolid? hlast
    refine ⟨⟨first, hmem.2 ⟨hsublist.mem List.mem_cons_self, hfirst⟩, ?_⟩,
      last, hmem.2 ⟨hsublist.mem hlastMem, hlastKind⟩, rfl⟩
    rw [Token.first_location]

/-- A name left over behind the version, a broken clause, a broken statement and a bundle that runs
over two lines. -/
theorem tokens_claimed_once_left_over :
    let settings : Settings := { logger := .silent, limit := 9, files := .empty }
    let text := "version 1.0 z\nqubits ]\nx q | ]\n\x7b y;\nw \x7d"
    let tokens := (streamOf text).tokens.filter (!·.kind.isSeparator)
    (parseSession settings (.string text "f")).errors.aborted = false ∧ tokens.length = 13 ∧
      ∃ root, (parseText settings "f" text).root = some root ∧
        (partRanges "f" (streamOf text).tokens root.program).length = 5 ∧
        ∀ token ∈ tokens, (partRanges "f" (streamOf text).tokens root.program).countP
          (·.Covers (token.location "f")) = 1 := by
  intro settings text tokens
  have h : (parseSession settings (.string text "f")).errors.aborted = false := by
    decide +kernel
  have hroot := parseText_root settings "f" text
  have hlength : (partRanges "f" (streamOf text).tokens
      (limitedReading settings.limit "f" text).root.program).length = 5 := by
    decide +kernel
  refine ⟨h, by decide +kernel, _, hroot, hlength, ?_⟩
  cases hprogram : (limitedReading settings.limit "f" text).root.program with
  | program version qubits statements range =>
    rw [← hprogram]
    exact (tokens_claimed_once h hroot hprogram).1
  | erroneous range =>
    rw [hprogram] at hlength
    cases hlength

end Cqasm
