import Cqasm.Proofs.Coverage
import Cqasm.Proofs.Grammar.Nodes

/-!
# The layout of a tree

However broken a text is and however early reading gives up, every node of the tree has a range of
the file, contains its children, and keeps them apart from each other (`tree_laid_out`). Children
are in the order of the text, with two exceptions: what a mapping maps to may be written behind its
expression, and the qubits clause of a program is visited before the rest of a line that follows the
version.

All that was read was read from rows of tokens one behind the other (`Contains`), so what is true of
the rows is true of the ranges.
-/

set_option autoImplicit false

namespace Cqasm

open Grammar

/-! ## Nodes that are laid out -/

/-- One range is over before the other one starts. -/
def Location.Apart (range range' : Location) : Prop :=
  range.last.Before range'.first ∨ range'.last.Before range.first

/-- That the range of a node lies in a file, and the ranges of its children lie in the range of the
node and one behind the other. -/
structure Node.LaidOut (file : String) (node : Node) : Prop where
  file_eq : node.location.file = file
  line_pos : 1 ≤ node.location.first.line
  column_pos : 1 ≤ node.location.first.column
  first_le_last : node.location.first ≤ node.location.last
  covers : ∀ child ∈ node.children, node.location.Covers child.location
  apart : node.children.Pairwise fun a b => a.location.Apart b.location
  ascending : node.kind ≠ .program → node.kind ≠ .mapping →
    node.children.Pairwise fun a b => a.location.last.Before b.location.first
  statements_ascending : ∀ version qubits statements range,
    node = .program (.program version qubits statements range) →
      statements.Pairwise fun a b => a.location.last.Before b.location.first

namespace Grammar

variable {file : String} {ts row : List Token} {range range' : Location} {node : Node}
  {nodes : List Node}

/-- The last solid token of a row is the first one or comes behind it. -/
theorem Span.first_le_last (h : Span file ts range) (hrises : Rises file ts) :
    range.first ≤ range.last := by
  obtain @⟨first, last, rest, hfirst, hlast⟩ := h
  rcases List.mem_cons.1 (mem_of_lastSolid? hlast).1 with rfl | hmem
  · exact last.first_le_last file
  · exact Point.le_trans (first.first_le_last file)
      (Point.le_trans ((List.pairwise_cons.1 hrises.apart).1 last hmem).le
        (last.first_le_last file))

/-- The range of a row contains those of the rows inside of it. -/
theorem Span.covers_span (h : Span file ts range) (hrises : Rises file ts) (hinside : row <:+: ts)
    (h' : Span file row range') : range.Covers range' := by
  obtain @⟨first, last, rest, hfirst, hlast⟩ := h'
  obtain ⟨hmem, hkind⟩ := mem_of_lastSolid? hlast
  have hstart := h.covers hrises (hinside.sublist.mem List.mem_cons_self) hfirst
  have hstop := h.covers hrises (hinside.sublist.mem hmem) hkind
  rw [first.location_eq] at hstart
  exact ⟨hstart.1, hstart.2.1, hstop.2.2⟩

/-- A range starts on a line of the file and at a column of the line. -/
theorem Span.start (h : Span file ts range) (hrises : Rises file ts) :
    range.file = file ∧ 1 ≤ range.first.line ∧ 1 ≤ range.first.column := by
  obtain @⟨first, last, rest, -, -⟩ := h
  have hline := hrises.line_pos first List.mem_cons_self
  have hcolumn : first.firstPoint.column = first.start.column + 1 := rfl
  refine ⟨rfl, hline, ?_⟩
  show 1 ≤ first.firstPoint.column
  omega

/-- A node that has the range of a row is laid out if its children stand for rows inside of it. -/
theorem laidOut_of_spread (hspan : Span file ts node.location) (hrises : Rises file ts)
    (hspread : Spread (IsNode file) ts nodes) (hperm : nodes.Perm node.children)
    (hnodes : node.kind ≠ .program → node.kind ≠ .mapping → nodes = node.children)
    (hstatements : ∀ version qubits statements range,
      node = .program (.program version qubits statements range) →
        (statements.map Node.statement).Sublist nodes) : node.LaidOut file := by
  have hascending := hspread.pairwise_location hrises
  obtain ⟨hfile, hline, hcolumn⟩ := hspan.start hrises
  have hapart : nodes.Pairwise fun a b => a.location.Apart b.location := hascending.imp Or.inl
  have hsymm : ∀ {a b : Node}, a.location.Apart b.location → b.location.Apart a.location := Or.symm
  exact {
    file_eq := hfile
    line_pos := hline
    column_pos := hcolumn
    first_le_last := hspan.first_le_last hrises
    covers := fun child hchild => by
      obtain ⟨row, hinside, hrow⟩ := hspread.exists_row (hperm.mem_iff.2 hchild)
      exact hspan.covers_span hrises hinside (hrow.span (hrises.sublist hinside.sublist))
    apart := (hperm.pairwise_iff hsymm).1 hapart
    ascending := fun hprogram hmapping => hnodes hprogram hmapping ▸ hascending
    statements_ascending := fun version qubits statements range hnode =>
      List.pairwise_map.1 (hascending.sublist (hstatements version qubits statements range hnode)) }

/-- A node of the grammar covers its row, and its parts cover rows inside. -/
theorem IsNode.laidOut (h : IsNode file ts node) (hrises : Rises file ts) : node.LaidOut file := by
  obtain ⟨nodes, hperm, hspread, hnodes⟩ := h.exists_spread
  refine laidOut_of_spread (h.span hrises) hrises hspread hperm (fun _ => hnodes) ?_
  rintro version qubits statements range rfl
  cases h

/-! ## Programs -/

/-- A row of tokens that a program was read from, whatever is broken in it. What follows the version
on its line comes before the qubits clause in the text and behind it in the tree. -/
inductive IsRead (file : String) : Phrase Program
  | mk {first : Token} {ts : List Token} {version : Version} {qubits : Option Expr}
      {leftOver statements : List Statement} :
      first.kind.isSeparator = false →
      Spread (IsNode file) (first :: ts)
        (.version version :: (leftOver.map .statement ++
          (qubits.toList.map .expr ++ statements.map .statement))) →
      IsRead file (first :: ts)
        (.program version qubits (leftOver ++ statements) (rangeOf file (first :: ts)))

variable {program : Program}

/-- What was read covers what was passed, placeholders included. -/
theorem IsRead.laidOut (h : IsRead file ts program) (hrises : Rises file ts) :
    (Node.program program).LaidOut file := by
  obtain @⟨first, ts, version, qubits, leftOver, statements, hfirst, hspread⟩ := h
  refine laidOut_of_spread (span_rangeOf hfirst hrises) hrises hspread ?_
    (fun hkind => absurd rfl hkind) ?_
  · rw [Node.children_program, List.map_append]
    exact (List.perm_append_comm_assoc ..).cons _
  · rintro _ _ _ _ hnode
    cases hnode
    rw [List.map_append]
    exact ((List.sublist_append_right ..).append_left _).cons _

/-- Each part of the program was read from a row of its own. -/
theorem IsRead.exists_row (h : IsRead file ts program) {child : Node}
    (hchild : child ∈ (Node.program program).children) :
    ∃ row, row <:+: ts ∧ IsNode file row child := by
  obtain @⟨first, ts, version, qubits, leftOver, statements, -, hspread⟩ := h
  rw [Node.children_program, List.map_append] at hchild
  exact hspread.exists_row (((List.perm_append_comm_assoc ..).cons _).mem_iff.1 hchild)

/-- What holds of the program and of everything that a row inside of its row stands for holds
everywhere in the program. -/
theorem IsRead.everywhere {p : Node → Prop} (h : IsRead file ts program)
    (hprogram : p (.program program))
    (hp : ∀ ⦃row node⦄, row <:+: ts → IsNode file row node → p node) :
    (Node.program program).Everywhere p := by
  refine .mk hprogram fun child hchild => ?_
  obtain ⟨row, hinside, hrow⟩ := h.exists_row hchild
  exact hrow.everywhere fun row' node hinside' hnode => hp (hinside'.trans hinside) hnode

theorem IsRead.everywhere_laidOut (h : IsRead file ts program) (hrises : Rises file ts) :
    (Node.program program).Everywhere (Node.LaidOut file) :=
  h.everywhere (h.laidOut hrises) fun _ _ hinside hnode =>
    hnode.laidOut (hrises.sublist hinside.sublist)

end Grammar

/-! ## Reading row by row -/

/-- Parts of a tree were read on the way from one cursor to another one, each from a row of tokens
of its own. -/
inductive Contains (file : String) (c behind : Cursor) (nodes : List Node) : Prop
  | mk {ts : List Token} : c.Passes ts behind → Spread (IsNode file) ts nodes →
      Contains file c behind nodes

namespace Contains

variable {file : String} {c middle behind : Cursor} {nodes nodes' : List Node} {node : Node}
  {ts : List Token}

theorem nil (h : c.Passes ts behind) : Contains file c behind [] :=
  .mk h .nil

theorem row (h : c.Passes ts behind) (hnode : IsNode file ts node) :
    Contains file c behind [node] :=
  .mk h (.single hnode)

theorem append (h : Contains file c middle nodes) (h' : Contains file middle behind nodes') :
    Contains file c behind (nodes ++ nodes') := by
  obtain ⟨hpasses, hspread⟩ := h
  obtain ⟨hpasses', hspread'⟩ := h'
  exact .mk (hpasses.trans hpasses') (hspread.append hspread')

theorem pastSeparators (h : Contains file c.pastSeparators behind nodes) :
    Contains file c behind nodes :=
  (nil c.passes_pastSeparators).append h

end Contains

section

variable {patience : Patience} {file : String} {c : Cursor} {token : Token} {tokens : List Token}

theorem contains_versionEnd (file : String) (hended : c.Ended) :
    let read := Parser.versionEnd.recover (fun range => [.erroneous range]) file c
    Contains file c read.cursor (read.value.map .statement) := by
  intro read
  rcases cases_versionEnd file hended with ⟨hvalue, hcursor⟩ | ⟨first, ts, hts, hfirst, hvalue⟩
  · rw [show read.value = _ from hvalue, show read.cursor = _ from hcursor]
    exact .nil c.passes_nil
  · rw [show read.value = _ from hvalue]
    exact .row hts (.brokenStatement hfirst)

/-- The clause is one row, read or skipped. -/
theorem contains_readQubits (file : String) (hended : c.Ended) :
    let read := readQubits file c
    Contains file c read.cursor (read.value.toList.map .expr) := by
  intro read
  rcases cases_readQubits file hended with
    ⟨hvalue, hcursor⟩ | ⟨hkind, count, ts, hvalue, hts, hcount⟩
  · rw [show read.value = _ from hvalue, show read.cursor = _ from hcursor]
    exact .nil c.passes_nil
  · rw [show read.value = _ from hvalue]
    rcases hcount with he | rfl
    · exact .mk hts ((Spread.single (.expr he)).marked _)
    · exact .row hts (.brokenExpr (by rw [show c.current.kind = _ from hkind]; rfl))

theorem contains_statement (hended : c.Ended) (h : c.tokens = token :: tokens)
    (hkind : token.kind.isSeparator = false) :
    let read := (Parser.terminated Parser.statement).recover .erroneous file c
    Contains file c read.cursor [.statement read.value] := by
  intro read
  obtain ⟨first, ts, hts, hfirst, hvalue⟩ := exists_row_statement hended h hkind
  rcases hvalue with hstatement | hvalue
  · exact .row hts (.statement hstatement)
  · rw [show read.value = _ from hvalue]
    exact .row hts (.brokenStatement hfirst)

/-- One statement after the other, each with the separators behind it left out. -/
theorem contains_readStatements (patience : Patience) (file : String) (complaints : Nat)
    (hended : c.Ended) :
    let body := readStatements patience file complaints c
    Contains file c body.cursor (body.statements.map .statement) := by
  fun_induction readStatements patience file complaints c with
  | case1 complaints c h => exact .nil c.passes_pastSeparators
  | case2 complaints c token tokens h hexhausted => exact .nil c.passes_pastSeparators
  | case3 complaints c token tokens h hexhausted read rest ih =>
    have hended' := c.passes_pastSeparators.ended hended
    have hkind := Cursor.isSeparator_of_pastSeparators h
    obtain ⟨ts, hts⟩ := exists_passes_recover (Parser.terminated Parser.statement) .erroneous file
      c.pastSeparators
    exact ((contains_statement hended' h hkind).append (ih (hts.ended hended'))).pastSeparators

end

namespace Reading

variable {file : String} {c start : Cursor}

/-- Behind a version, parts are read row by row. -/
theorem contains_ofVersion (patience : Patience) (file : String) (location : Location)
    (version : Version) (hended : c.Ended) :
    ∃ behind qubits leftOver statements,
      Contains file c behind (leftOver.map .statement ++
        (qubits.toList.map .expr ++ statements.map .statement)) ∧
      (ofVersion patience file location version c).root =
        rootOf (.program version qubits (leftOver ++ statements)
          (behind.rangeFrom file location)) := by
  unfold ofVersion
  dsimp only
  have hversion := contains_versionEnd file hended
  generalize hbroken : Parser.versionEnd.recover (fun range => [.erroneous range]) file c = broken
    at hversion ⊢
  obtain ⟨us, hus⟩ : ∃ us, c.Passes us broken.cursor := by
    rw [← hbroken]
    exact exists_passes_recover ..
  have hended' := broken.cursor.passes_pastSeparators.ended (hus.ended hended)
  obtain ⟨vs, hvs⟩ := exists_passes_readQubits file broken.cursor.pastSeparators
  have hbody := contains_readStatements patience file
    (broken.error.toList ++
      (readQubits file broken.cursor.pastSeparators).error.toList).length (hvs.ended hended')
  have hrest := ((contains_readQubits file hended').append hbody).pastSeparators
  exact ⟨_, _, _, _, hversion.append hrest, rfl⟩

/-- A program is read from a row of tokens, unless its version is broken. Then all that is left of
it is a range that starts where the text does and reaches up to a later token. -/
theorem cases_ofCursor (patience : Patience) (file : String) (hended : c.Ended) :
    (∃ row program, row <:+: c.tokens ∧ IsRead file row program ∧
        (ofCursor patience file c).root = rootOf program) ∨
      ∃ (stuck : Cursor) (ts : List Token), c.pastSeparators.Passes ts stuck ∧
        (ofCursor patience file c).root = rootOf (.erroneous
          ((c.pastSeparators.current.location file).through (stuck.current.location file))) := by
  have hpast := c.passes_pastSeparators
  have hversion := Parser.version.passes file c.pastSeparators
  unfold ofCursor
  dsimp only
  -- Without a version the range goes from where reading began to where it got stuck.
  cases hrun : Parser.version.run file c.pastSeparators with
  | failed failure stuck =>
    rw [hrun] at hversion
    obtain ⟨ts, hts⟩ := hversion
    exact .inr ⟨stuck, ts, hts, rfl⟩
  | ok v middle =>
    obtain ⟨_, hhead, keyword, number, rfl, hkeyword, hnumber, hv⟩ :=
      version_recognises.sound (hpast.ended hended) hrun
    have hsolid : keyword.kind.isSeparator = false := by
      rw [hkeyword]
      rfl
    obtain ⟨behind, qubits, leftOver, statements, hcontains, hroot⟩ :=
      contains_ofVersion patience file (c.pastSeparators.current.location file) v
        ((hpast.trans hhead).ended hended)
    have hversion : IsNode file [keyword, number] (.version v) := by
      rw [hv]
      exact .version hkeyword hnumber
    obtain @⟨us, hpasses, hspread⟩ := hcontains
    have hwhole := hhead.trans hpasses
    rw [hwhole.rangeFrom_eq file hsolid] at hroot
    refine .inl ⟨_, _, ?_, .mk hsolid (.next hversion hspread), hroot⟩
    have htokens := (hpast.trans hwhole).tokens_eq
    rw [htokens]
    exact List.infix_append _ _ _

end Reading

/-! ## Texts -/

theorem Node.children_root (program : Program) :
    (root (Reading.rootOf program)).children = [.program program] := by
  simp [children, fields, Field.nodes, Reading.rootOf]

variable {file : String} {program : Program}

/-- All that a tree adds to its program is the root. -/
theorem Node.Everywhere.root {p : Node → Prop} (h : (Node.program program).Everywhere p)
    (hroot : p (.root (Reading.rootOf program))) :
    (Node.root (Reading.rootOf program)).Everywhere p := by
  refine .mk hroot fun child hchild => ?_
  rw [Node.children_root] at hchild
  rwa [List.mem_singleton.1 hchild]

theorem Location.covers_refl (range : Location) : range.Covers range :=
  ⟨rfl, Point.le_refl _, Point.le_refl _⟩

/-- A tree over a program is laid out if the program is. -/
theorem Node.LaidOut.root (h : (Node.program program).LaidOut file) :
    (Node.root (Reading.rootOf program)).LaidOut file where
  file_eq := h.file_eq
  line_pos := h.line_pos
  column_pos := h.column_pos
  first_le_last := h.first_le_last
  covers := by
    rw [Node.children_root]
    exact List.forall_mem_singleton.2 (Location.covers_refl _)
  apart := by
    rw [Node.children_root]
    exact List.pairwise_singleton _ _
  ascending _ _ := by
    rw [Node.children_root]
    exact List.pairwise_singleton _ _
  statements_ascending _ _ _ _ h := by cases h

/-- A range that goes on does not lose its end. -/
theorem Location.last_le_through {start : Location} (h : start.first.line ≠ 0) (stop : Location) :
    start.last ≤ (start.through stop).last := by
  rw [through, grow]
  split
  · exact Point.le_refl _
  · exact Point.le_max_left _ _

theorem Location.file_through (start stop : Location) :
    (start.through stop).file = start.file := by
  rw [through, grow]
  split
  · rfl
  · split <;> rfl

/-- The range that is left of a program goes on from where the text starts. -/
theorem everywhere_laidOut_erroneous {token : Token} (hline : 0 < token.start.line)
    (stop : Location) :
    (Node.program (.erroneous ((token.location file).through stop))).Everywhere
      (Node.LaidOut file) := by
  have hfirst := token.first_location file
  have hline' : token.firstPoint.line = token.start.line := rfl
  have hcolumn : token.firstPoint.column = token.start.column + 1 := rfl
  have hstart : (token.location file).first.line ≠ 0 := by
    rw [hfirst]
    omega
  have hlocation : ((token.location file).through stop).first = token.firstPoint := by
    rw [Location.first_through hstart, hfirst]
  have hnone : (Node.program (.erroneous ((token.location file).through stop))).children = [] := by
    simp [Node.children, Node.fields]
  refine .mk ?_ (by simp [hnone])
  -- nothing is below the placeholder, so only its own range matters
  exact {
    file_eq := (Location.file_through ..).trans (by rw [token.location_eq])
    line_pos := by
      show 1 ≤ ((token.location file).through stop).first.line
      rw [hlocation]
      omega
    column_pos := by
      show 1 ≤ ((token.location file).through stop).first.column
      rw [hlocation]
      omega
    first_le_last := hlocation.symm ▸
      Point.le_trans (token.first_le_last file) (Location.last_le_through hstart stop)
    covers := by simp [hnone]
    apart := by simp [hnone]
    ascending := by simp [hnone]
    statements_ascending := fun _ _ _ _ h => by cases h }

/-- What was read of a text was read from a row of its tokens, unless its version is broken. Then
it goes from one token of the text to another one. -/
theorem cases_root_parseText (settings : Settings) (file text : String) :
    (∃ row program, row <:+: (streamOf text).tokens ∧ IsRead file row program ∧
        (parseText settings file text).root = some (Reading.rootOf program)) ∨
      ∃ first ∈ (streamOf text).tokens ++ [(streamOf text).last],
        ∃ last ∈ (streamOf text).tokens ++ [(streamOf text).last],
          (parseText settings file text).root = some (Reading.rootOf
            (.erroneous ((first.location file).through (last.location file)))) := by
  rw [parseText_root]
  let start := Cursor.ofStream (streamOf text)
  have hmem {c : Cursor} {ts : List Token} (h : start.Passes ts c) :
      c.current ∈ start.tokens ++ [start.last] := by
    rw [h.append_eq]
    exact List.mem_append_right _ c.current_mem
  rcases Reading.cases_ofCursor _ file (ended_ofStream text) with
    ⟨row, program, hinside, hread, hroot⟩ | ⟨stuck, ts, hts, hroot⟩
  · exact .inl ⟨row, program, hinside, hread, congrArg some hroot⟩
  · have hpast := start.passes_pastSeparators
    exact .inr ⟨_, hmem hpast, _, hmem (hpast.trans hts), congrArg some hroot⟩

/-- A text is read as a program of some form, or as one placeholder for it all. -/
theorem cases_parseText (settings : Settings) (file text : String) :
    (∃ row program, row <:+: (streamOf text).tokens ∧ IsRead file row program ∧
        (parseText settings file text).root = some (Reading.rootOf program)) ∨
      ∃ (first : Token) (stop : Location), 0 < first.start.line ∧
        (parseText settings file text).root =
          some (Reading.rootOf (.erroneous ((first.location file).through stop))) := by
  rcases cases_root_parseText settings file text with h | ⟨first, hfirst, last, -, hroot⟩
  · exact .inl h
  · exact .inr ⟨first, _, (ordered_ofStream text).line_pos _ hfirst, hroot⟩

/-- Whatever a text holds and whenever reading gives up, every node of the tree is laid out. -/
theorem tree_laid_out (settings : Settings) (file text : String) :
    ∃ root, (parseText settings file text).root = some root ∧
      (Node.root root).Everywhere (Node.LaidOut file) := by
  rcases cases_parseText settings file text with
    ⟨row, program, hinside, hread, hroot⟩ | ⟨first, stop, hline, hroot⟩
  · have hrises := (rises_tokens file text).sublist hinside.sublist
    have hprogram := hread.everywhere_laidOut hrises
    exact ⟨_, hroot, hprogram.root hprogram.here.root⟩
  · have hprogram : (Node.program _).Everywhere (Node.LaidOut file) :=
      everywhere_laidOut_erroneous hline stop
    exact ⟨_, hroot, hprogram.root hprogram.here.root⟩

end Cqasm
