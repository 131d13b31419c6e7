import Cqasm.Proofs.Agreement.Phrase
import Cqasm.Proofs.Grammar.Tokens
import Cqasm.Proofs.Layout

/-!
# Excerpts of a text

The range of an expression is exactly what has to be cut out of the text to get the expression: the
excerpt, written as the only operand of an instruction, is read as the same expression again
(`parse_excerpts`).

An excerpt is cut by lines and columns. That it goes from the start of the first token of the
expression to the end of the last one is a matter of places (`excerpt_eq`), and that its tokens are
those of the expression a matter of pieces.
-/

set_option autoImplicit false

namespace Cqasm

open Grammar

/-! ## Cutting by lines and columns -/

/-- The line and the column of a character, columns counted from 1. -/
def Position.point (place : Position) : Point :=
  ⟨place.line, place.column + 1⟩

/-- A point is in a range, both ends included. -/
def Location.Includes (range : Location) (point : Point) : Prop :=
  range.first ≤ point ∧ point ≤ range.last

instance (range : Location) (point : Point) : Decidable (range.Includes point) :=
  inferInstanceAs (Decidable (_ ∧ _))

/-- The characters of a text whose lines and columns are in a range. -/
def excerpt (range : Location) (text : List Char) : List Char :=
  (text.zipIdx.filter fun entry => range.Includes (Position.within text entry.2).point).map Prod.fst

namespace Position

variable {a b : Position} {text : List Char} {i j : Nat}

/-- The line and the column of the character in front of a place, unless it ends a line. -/
def pointAhead (place : Position) : Point :=
  ⟨place.line, place.column⟩

theorem Before.point_before (h : a.Before b) : a.point.Before b.point := by
  have hreading := h.reading
  unfold Point.Before point
  dsimp only
  omega

theorem Before.point_le_pointAhead (h : a.Before b) : a.point ≤ b.pointAhead := by
  have hreading := h.reading
  show (a.line : Int) < b.line ∨ (a.line : Int) = b.line ∧ (a.column : Int) + 1 ≤ b.column
  omega

theorem pointAhead_before_point (place : Position) : place.pointAhead.Before place.point := by
  unfold Point.Before pointAhead point
  dsimp only
  omega

theorem after_take (h : i ≤ text.length) : start.after (text.take i) = within text i := by
  rw [after_start_of_append _ (text.drop i), List.take_append_drop, List.length_take,
    Nat.min_eq_left h]

theorem within_before_within (hij : i < j) (hj : j ≤ text.length) :
    (within text i).Before (within text j) := by
  obtain ⟨k, rfl⟩ := Nat.exists_eq_add_of_lt hij
  have hi : i < text.length := by omega
  rw [← after_take hi.le, ← after_take hj, Nat.add_assoc, List.take_add, after_append,
    List.drop_eq_getElem_cons hi, List.take_succ_cons]
  exact before_after ..

end Position

/-- Entries that are chosen by their indices. -/
theorem map_fst_filter_zipIdx {α : Type} {before slice behind : List α} {p : Nat → Prop}
    [DecidablePred p] (h : ∀ i < before.length + (slice.length + behind.length),
      p i ↔ before.length ≤ i ∧ i < before.length + slice.length) :
    ((before ++ (slice ++ behind)).zipIdx.filter fun entry => p entry.2).map Prod.fst = slice := by
  have hbefore : before.zipIdx.filter (fun entry => p entry.2) = [] := by
    refine List.filter_eq_nil_iff.2 fun entry hentry => ?_
    obtain ⟨-, hlt, -⟩ := List.mem_zipIdx hentry
    rw [decide_eq_true_eq, h _ (by omega)]
    omega
  have hslice : (slice.zipIdx before.length).filter (fun entry => p entry.2) =
      slice.zipIdx before.length := by
    refine List.filter_eq_self.2 fun entry hentry => ?_
    obtain ⟨hle, hlt, -⟩ := List.mem_zipIdx hentry
    rw [decide_eq_true_eq, h _ (by omega)]
    exact ⟨hle, hlt⟩
  have hbehind : (behind.zipIdx (before.length + slice.length)).filter (fun entry => p entry.2) =
      [] := by
    refine List.filter_eq_nil_iff.2 fun entry hentry => ?_
    obtain ⟨hle, hlt, -⟩ := List.mem_zipIdx hentry
    rw [decide_eq_true_eq, h _ (by omega)]
    omega
  rw [List.zipIdx_append, List.zipIdx_append, Nat.zero_add, List.filter_append,
    List.filter_append, hbefore, hslice, hbehind, List.nil_append, List.append_nil,
    List.zipIdx_map_fst]

/-- A range from where some characters start to where they end cuts them out of a text. -/
theorem excerpt_eq {range : Location} {before slice behind : List Char}
    (hfirst : range.first = (Position.start.after before).point)
    (hlast : range.last = (Position.start.after (before ++ slice)).pointAhead) :
    excerpt range (before ++ (slice ++ behind)) = slice := by
  -- What is included is a matter of the offsets, for places are in the order of theirs.
  suffices h : ∀ i < before.length + (slice.length + behind.length),
      range.Includes (Position.within (before ++ (slice ++ behind)) i).point ↔
        before.length ≤ i ∧ i < before.length + slice.length from map_fst_filter_zipIdx h
  intro i hi
  rw [Position.after_start_of_append _ (slice ++ behind)] at hfirst
  rw [Position.after_start_of_append _ behind, List.append_assoc, List.length_append] at hlast
  have hlength : (before ++ (slice ++ behind)).length =
      before.length + (slice.length + behind.length) := by
    rw [List.length_append, List.length_append]
  generalize before ++ (slice ++ behind) = text at hfirst hlast hlength ⊢
  rw [← hlength] at hi
  rw [Location.Includes, hfirst, hlast]
  constructor
  · rintro ⟨hle, hle'⟩
    refine ⟨Nat.le_of_not_lt fun hlt => ?_, Nat.lt_of_not_le fun hge => ?_⟩
    · exact (Position.within_before_within hlt (by omega)).point_before.not_le hle
    · have hend := Position.pointAhead_before_point (.within text (before.length + slice.length))
      rcases Nat.eq_or_lt_of_le hge with rfl | hlt
      · exact hend.not_le hle'
      · exact (hend.trans (Position.within_before_within hlt hi.le).point_before).not_le hle'
  · rintro ⟨hle, hlt⟩
    refine ⟨?_, (Position.within_before_within hlt (by omega)).point_le_pointAhead⟩
    rcases Nat.eq_or_lt_of_le hle with rfl | hlt
    · exact Point.le_refl _
    · exact (Position.within_before_within hlt hi.le).point_before.le

/-! ## The excerpt at an expression -/

/-- A token that has characters ends at the last of them, unless it is a newline. -/
theorem Token.last_eq_pointAhead {token : Token} (file : String) (htext : token.text ≠ [])
    (hnewline : token.kind ≠ .newline) (heof : token.kind ≠ .eof) :
    (token.location file).last = token.stop.pointAhead := by
  have hbefore : token.start.Before token.stop := by
    obtain ⟨c, rest, hsplit⟩ := List.exists_cons_of_ne_nil htext
    rw [stop, hsplit]
    exact Position.before_after ..
  unfold location
  split
  · next hkind => exact absurd hkind heof
  · next hkind => exact absurd hkind hnewline
  · exact Point.max_eq_right hbefore.point_le_pointAhead

theorem Token.last_location {token : Token} (file : String) (htext : token.text ≠ [])
    (hsolid : token.kind.isSeparator = false) (heof : token.kind ≠ .eof) :
    (token.location file).last = token.stop.pointAhead := by
  refine Token.last_eq_pointAhead file htext (fun hkind => ?_) heof
  rw [hkind] at hsolid
  cases hsolid

theorem TokenStream.text_ne_nil_of_mem_tokens {text : List Char} {token : Token}
    (h : token ∈ (ofText text).tokens) : token.text ≠ [] := by
  obtain ⟨piece, -, place, hpiece⟩ := Item.mem_ofLexemes (mem_tokens_iff.1 h)
  rcases Item.cases_of_ofLexeme? hpiece with ⟨_, heq, -, htext, -⟩ | ⟨heq, -⟩
  · cases heq
    rw [htext]
    exact List.cons_ne_nil _ _
  · cases heq

section

variable {file text : String} {row : List Token} {e : Expr}

/-- The excerpt of a text at an expression has the tokens of the expression, and nothing is wrong
with its characters. -/
theorem exists_tokensOf_excerpt (hlexical : (streamOf text).diagnostics = [])
    (hrow : row <:+: (streamOf text).tokens) (he : IsExpr file row e) :
    ∃ place, tokensOf place (Lexeme.cut (excerpt e.location text.toList)) = row ∧
      ∀ piece ∈ Lexeme.cut (excerpt e.location text.toList), piece.Clean := by
  have hspan := spans_expression _ he ((rises_tokens file text).sublist hrow.sublist)
  have hportable := portable_expression _ he
  obtain ⟨init, last, hinit, hsolid⟩ := closes_expression _ he
  obtain ⟨front, rear, htokens⟩ := hrow
  generalize e.location = range at hspan ⊢
  obtain @⟨first, last', rest, hfirst, hlast⟩ := hspan
  obtain rfl : last = last' := by
    rw [hinit, lastSolid?_concat init hsolid] at hlast
    exact Option.some_inj.1 hlast
  rw [List.append_assoc] at htokens
  obtain ⟨left, pieces, right, hcut, hpieces, hstart, hstop⟩ :=
    exists_pieces_of_row htokens.symm hinit
  have hclean : ∀ piece ∈ pieces, piece.Clean := fun piece hpiece =>
    Item.diagnostics_ofLexemes_eq_nil_iff.1 hlexical piece (by simp [hcut, hpiece])
  -- The pieces of the row do not change when they are cut out of the text: none of them is the mark
  -- of a condition or has to do with `version`.
  have hcut' : Lexeme.cut (pieces.flatMap Lexeme.text) = pieces := by
    refine Lexeme.cut_flatMap_text hcut fun piece hpiece kind complete hrole => ⟨?_, ?_⟩
    · have hcomplete := hclean piece hpiece
      rwa [Lexeme.Clean, hrole] at hcomplete
    · obtain ⟨token, htoken, rfl⟩ := exists_mem_tokensOf first.start hpiece hrole
      exact hportable token (hpieces ▸ htoken)
  have hmem : last ∈ (streamOf text).tokens := by
    rw [← htokens, hinit]
    simp
  have htext : text.toList = left.flatMap Lexeme.text ++
      (pieces.flatMap Lexeme.text ++ right.flatMap Lexeme.text) := by
    rw [← List.flatMap_append, ← List.flatMap_append, ← hcut, Lexeme.flatMap_text_cut]
  have hexcerpt : excerpt { file, first := first.firstPoint, last := (last.location file).last }
      text.toList = pieces.flatMap Lexeme.text := by
    rw [htext]
    apply excerpt_eq
    · rw [← hstart]
      rfl
    · rw [Position.after_append, ← hstart, ← hstop]
      exact Token.last_location file (TokenStream.text_ne_nil_of_mem_tokens hmem) hsolid
        (TokenStream.kind_ne_eof_of_mem_tokens hmem)
  rw [hexcerpt, hcut']
  exact ⟨first.start, hpieces, hclean⟩

end

/-! ## An instruction with one operand -/

/-- The program of a single instruction `x` with a single operand. -/
def Program.ofOperand (e : Expr) : Program :=
  .program { items := [.whole 1, .whole 0], location := default } none
    [.bundle
      [{ name := { name := "x", location := default }, condition := none, operands := [e]
         annotations := [], location := default }] default] default

theorem Program.bare_ofOperand (e : Expr) : (ofOperand e).bare = ofOperand e.bare := rfl

/-- The same pieces make tokens that are alike, wherever they stand. -/
theorem forall₂_tokensOf (place place' : Position) (pieces : List Lexeme) :
    List.Forall₂ Token.Alike (tokensOf place pieces) (tokensOf place' pieces) := by
  induction pieces generalizing place place' with
  | nil => exact .nil
  | cons piece pieces ih =>
    rw [tokensOf_cons, tokensOf_cons]
    refine List.rel_append ?_ (ih _ _)
    unfold Item.ofLexeme?
    cases piece.role with
    | token => exact .cons ⟨rfl, rfl⟩ .nil
    | blank | comment | stray => exact .nil

/-- A text of a single instruction `x`. -/
def instructionX : String := "version 1.0\nx"

/-- The tokens of that text. -/
def tokensX : List Token :=
  [{ kind := .version, text := "version".toList, start := ⟨0, 1, 0⟩, complete := true },
    { kind := .versionNumber, text := "1.0".toList, start := ⟨8, 1, 8⟩, complete := true },
    { kind := .newline, text := ['\n'], start := ⟨11, 1, 11⟩, complete := true },
    { kind := .identifier, text := ['x'], start := ⟨12, 2, 0⟩, complete := true }]

theorem tokensOf_instructionX : tokensOf .start (Lexeme.cut instructionX.toList) = tokensX := by
  decide +kernel

/-- Behind it and a blank, another text is cut as if it were all there is. -/
theorem cut_instructionX_append (behind : List Char) :
    Lexeme.cut (instructionX.toList ++ ' ' :: behind) =
      Lexeme.cut instructionX.toList ++
        { role := .blank, first := ' ', more := [] } :: Lexeme.cut behind := by
  have hclosed : ∀ piece ∈ Lexeme.cut instructionX.toList, piece.Closed ' ' := by decide +kernel
  have hversion : (Lexeme.cut instructionX.toList).foldl Lexeme.isAfterVersion false = false := by
    decide +kernel
  have hcut : Lexeme.cut (instructionX.toList ++ ' ' :: behind) = _ :=
    Lexeme.cutFrom_append (by decide) (Nat.zero_le _) hclosed
  rw [hcut, ← Lexeme.cut, hversion]
  rfl

/-- So the tokens of such a text are those of its two parts, and nothing is wrong with its
characters if nothing is wrong with those of the other text. -/
theorem exists_tokens_operand {line : String} {behind : List Char}
    (hline : line.toList = instructionX.toList ++ ' ' :: behind)
    (hclean : ∀ piece ∈ Lexeme.cut behind, piece.Clean) :
    (streamOf line).diagnostics = [] ∧
      ∃ place, (streamOf line).tokens = tokensX ++ tokensOf place (Lexeme.cut behind) := by
  have hcut := cut_instructionX_append behind
  rw [← hline] at hcut
  constructor
  · have hnone : (TokenStream.ofText instructionX.toList).diagnostics = [] := by decide +kernel
    have hhead : ∀ piece ∈ Lexeme.cut instructionX.toList, piece.Clean :=
      Item.diagnostics_ofLexemes_eq_nil_iff.1 hnone
    refine Item.diagnostics_ofLexemes_eq_nil_iff.2 ?_
    rw [hcut]
    exact List.forall_mem_append.2 ⟨hhead, List.forall_mem_cons.2 ⟨trivial, hclean⟩⟩
  · have hall : (streamOf line).tokens = tokensOf .start (Lexeme.cut line.toList) := rfl
    rw [hall, hcut, tokensOf_append, tokensOf_instructionX, tokensOf_cons]
    exact ⟨_, rfl⟩

/-- An expression behind it is the operand of the instruction. -/
theorem exists_isProgram_of_operand {file : String} {us : List Token} {e : Expr} {last : Token}
    (he : IsExpr file us e) (hlast : last.kind = .eof) :
    ∃ (version : Version) (gate : Instruction) (range range' : Location),
      let program := Program.program version none [.bundle [gate] range] range'
      IsProgram file (tokensX ++ (us ++ [last])) program ∧
        program.bare = (Program.ofOperand e).bare ∧ gate.operands = [e] := by
  -- The program is built from its tokens, each of which is known but those of the operand.
  have hnone : Separators [] := by simp [Separators]
  have hkeyword : tokensX[0].kind = .version := rfl
  have hnumber : tokensX[1].kind = .versionNumber := rfl
  have hseparation : Separation [tokensX[2]] := ⟨List.forall_mem_singleton.2 rfl, by simp⟩
  have hname : IsName file [tokensX[3]] _ := .mk rfl
  have hoperands : Listed (IsExpr file) (us ++ []) [e] := .some (.mk he .nil)
  have hbundle : IsStatement file _ _ := .bundle (.mk (.plain hname hoperands .nil) .nil)
  have hstatements : IsStatements file _ _ := .cons ⟨_, _, rfl, hseparation, hbundle⟩ .nil
  have hprogram : IsProgram file _ _ :=
    .mk hnone hkeyword hnumber .none hstatements hnone hlast
  have hitems : (Literal.versionNumbers tokensX[1].text).map VersionItem.ofNat =
      [.whole 1, .whole 0] := by
    decide +kernel
  have htokens : tokensX ++ (us ++ [last]) =
      tokensX[0] :: tokensX[1] :: tokensX[2] :: tokensX[3] :: (us ++ [last]) := rfl
  rw [htokens]
  refine ⟨_, _, _, _, by simpa using hprogram, ?_, rfl⟩
  simp only [hitems]
  rfl

/-- The excerpt of a text at an expression, as the operand of an instruction, is read as the same
expression, and there is nothing to report. -/
def Expr.ReadsBack (settings : Settings) (file text : String) (e : Expr) : Prop :=
  let line := instructionX ++ " " ++ String.ofList (excerpt e.location text.toList)
  (parseText settings file line).errors = [] ∧
    ∃ root, (parseText settings file line).root = some root ∧
      root.program.bare = (Program.ofOperand e).bare

section

variable {settings : Settings} {file text : String} {row : List Token} {e : Expr}

theorem readsBack_of_isExpr (hlexical : (streamOf text).diagnostics = [])
    (hrow : row <:+: (streamOf text).tokens) (he : IsExpr file row e) (settings : Settings)
    (file' : String) : e.ReadsBack settings file' text := by
  obtain ⟨place, hplace, hclean⟩ := exists_tokensOf_excerpt hlexical hrow he
  unfold Expr.ReadsBack
  generalize excerpt e.location text.toList = slice at hplace hclean ⊢
  have hline : (instructionX ++ " " ++ String.ofList slice).toList =
      instructionX.toList ++ ' ' :: slice := by
    simp
  dsimp only
  generalize instructionX ++ " " ++ String.ofList slice = line at hline ⊢
  obtain ⟨hlexical', place', htokens⟩ := exists_tokens_operand hline hclean
  -- the same pieces further to the right make tokens of the same words
  have halike := forall₂_tokensOf place place' (Lexeme.cut slice)
  rw [hplace] at halike
  have hinner : ∀ token ∈ tokensOf place' (Lexeme.cut slice), token.kind ≠ .eof := by
    intro token htoken
    have hmem : token ∈ (streamOf line).tokens := by
      rw [htokens]
      exact List.mem_append_right _ htoken
    exact TokenStream.kind_ne_eof_of_mem_tokens hmem
  obtain ⟨e', he', hbare⟩ : ∃ e', IsExpr file' _ e' ∧ e.bare = e'.bare :=
    Likeness.exists_expr he halike hinner
  have hlast : (streamOf line).last.kind = .eof := rfl
  obtain ⟨version, gate, range, range', hprogram, hprogramBare, -⟩ :=
    exists_isProgram_of_operand he' hlast
  rw [← List.append_assoc, ← htokens] at hprogram
  obtain ⟨herrors, hroot⟩ := parseText_of_isProgram settings hlexical' hprogram
  refine ⟨herrors, _, hroot, hprogramBare.trans ?_⟩
  rw [Program.bare_ofOperand, Program.bare_ofOperand, hbare]

/-- Cutting any expression of an accepted text out of the text and writing it as the only operand of
an instruction gives a program in which the operand is the same expression, up to ranges. -/
theorem parse_excerpts {root : Root} (herrors : (parseText settings file text).errors = [])
    (hroot : (parseText settings file text).root = some root) (settings' : Settings)
    (file' : String) :
    (Node.root root).Everywhere fun node =>
      ∀ e, node = .expr e → e.ReadsBack settings' file' text := by
  obtain ⟨hlexical, program, hprogram, hroot'⟩ := isProgram_of_errors_eq_nil herrors
  obtain rfl := Option.some_inj.1 (hroot.symm.trans hroot')
  have hwhole : (Node.root (Reading.rootOf program)).Whole :=
    whole_root (yields_program hprogram)
  refine hwhole.everywhere.mp ?_
  rcases cases_parseText settings file text with
    ⟨row, program', hinside, hread, hroot''⟩ | ⟨first, stop, -, hroot''⟩
  · cases Option.some_inj.1 (hroot.symm.trans hroot'')
    refine (hread.everywhere ?_ fun row' node hinside' hnode hwhole e he => ?_).root ?_
    · rintro - e ⟨⟩
    · subst he
      cases hnode with
      | expr he => exact readsBack_of_isExpr hlexical (hinside'.trans hinside) he settings' file'
      | brokenExpr => cases hwhole
    · rintro - e ⟨⟩
  · cases Option.some_inj.1 (hroot.symm.trans hroot'')
    have hprogram := (Node.whole_iff.1 hwhole).2 _ (by rw [Node.children_root]; exact .head _)
    cases (Node.whole_iff.1 hprogram).1

/-- The operands of a gate, one of which runs over two lines and has a comment in it. -/
theorem parse_excerpts_two_operands :
    let text := "version 1.0\nu -(c) ** [1, 2 # row\n ; 3, 4], q[0]\n"
    (parseText default "f" text).errors = [] ∧
      ∃ root, (parseText default "f" text).root = some root ∧
        ((Node.root root).children.flatMap fun program => program.children.flatMap fun part =>
            part.children.flatMap fun gate => gate.children.map fun operand =>
              String.ofList (excerpt operand.location text.toList)) =
          ["u", "-(c) ** [1, 2 # row\n ; 3, 4]", "q[0]"] ∧
        (Node.root root).Everywhere fun node =>
          ∀ e, node = .expr e → e.ReadsBack default "g" text := by
  intro text
  have herrors : (parseText default "f" text).errors = [] := by decide +kernel
  have hroot := parseText_root default "f" text
  exact ⟨herrors, _, hroot, by decide +kernel, parse_excerpts herrors hroot default "g"⟩

end

end Cqasm
