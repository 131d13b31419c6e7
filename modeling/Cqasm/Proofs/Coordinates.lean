import Cqasm.Proofs.Excerpt
import Cqasm.Proofs.Lexical.LineEndings
import Cqasm.Proofs.Lexical.Literals

/-!
# Coordinates are known

Every range of a tree and every range that is reported starts at a known point and ends where a
token does (`coordinates_known_iff`). That is the point of a character of the text or of its end,
except for a literal without an end that has a newline as its last character: nothing stands on its
last line, so the column of its end is 0.

A range is made of the first and the last token of a row, so it is enough to know where a token
ends: at a point of the text (`TokenStream.last_isOf`), or behind a newline of its own
(`TokenStream.last_of_trailsOff`).
-/

set_option autoImplicit false

namespace Cqasm

open Grammar

/-! ## Where tokens end -/

/-- The point is that of a character of the text, or of the end of the text. -/
def Point.IsOf (text : List Char) (point : Point) : Prop :=
  ∃ i ≤ text.length, point = (Position.within text i).point

/-- The token is a literal without an end, and the text trails off behind a newline in it. -/
def Token.TrailsOff (token : Token) : Prop :=
  token.complete = false ∧ token.text.getLast? = some '\n'

theorem Point.IsOf.known {text : List Char} {point : Point} (h : point.IsOf text) :
    point.Known := by
  obtain ⟨i, -, rfl⟩ := h
  show (1 : Int) ≤ (Position.within text i).line ∧ (1 : Int) ≤ (Position.within text i).column + 1
  unfold Position.within
  dsimp only
  omega

theorem Position.isOf_within (text : List Char) {i : Nat} (h : i ≤ text.length) :
    (within text i).point.IsOf text :=
  ⟨i, h, rfl⟩

/-- The column of a place is that of the character in front of it. -/
theorem Position.pointAhead_after_concat (here : Position) (init : List Char) {c : Char}
    (hc : c ≠ '\n') : (here.after (init ++ [c])).pointAhead = (here.after init).point := by
  rw [after_append, after_cons, after_nil, next, if_neg hc]
  rfl

namespace TokenStream

variable {file : String} {text : List Char} {token : Token}

/-- Only literals run over the end of a line. -/
theorem newline_notMem (h : token ∈ (ofText text).tokens)
    (hkind : token.kind ∉ [Kind.newline, .string, .json]) : '\n' ∉ token.text := by
  obtain ⟨piece, hpiece, -, htext, hrole⟩ := exists_pieceAt_of_mem_tokens h
  obtain ⟨before, afterVersion, c, rest, -, -, rfl⟩ := hpiece.exists_leading
  generalize token.kind = kind, token.complete = complete at hkind hrole
  have hc : c ≠ '\n' := by
    rintro rfl
    have hnewline : (Lexeme.leading afterVersion '\n' rest).role = .token .newline true := rfl
    cases hnewline.symm.trans hrole
    exact hkind List.mem_cons_self
  have hcomment : c ≠ '#' := by
    rintro rfl
    rw [Lexeme.leading_hash] at hrole
    cases hrole
  have hmore : '\n' ∉ (Lexeme.leading afterVersion c rest).more := by
    refine (Lexeme.leading_withReturns hc hcomment fun kind' complete hrole' hliteral => ?_).2
    cases hrole.symm.trans hrole'
    exact absurd (List.mem_cons_of_mem _ (by simpa using hliteral)) hkind
  rw [htext, Lexeme.text, Lexeme.first_leading, List.mem_cons, not_or]
  exact ⟨hc.symm, hmore⟩

/-- A token other than a newline that ends in a newline has no end. -/
theorem trailsOff_of_getLast? (h : token ∈ (ofText text).tokens) (hkind : token.kind ≠ .newline)
    (hlast : token.text.getLast? = some '\n') : token.TrailsOff := by
  refine ⟨?_, hlast⟩
  have hmem : token.kind ∈ [Kind.newline, .string, .json] :=
    Decidable.byContradiction fun hnot => newline_notMem h hnot (List.mem_of_getLast? hlast)
  have hnumber : token.kind ≠ .versionNumber := by
    intro heq
    rw [heq] at hmem
    revert hmem
    decide
  rcases cases_of_mem_tokens h hnumber with ⟨-, behind, hlexeme⟩ | ⟨hincomplete, -⟩
  · exfalso
    rcases hlexeme.delimited (by simpa using hmem) with ⟨heq, -⟩ | ⟨-, body, -, htext⟩ |
      ⟨-, body, -, htext⟩
    · exact hkind heq
    · rw [htext, ← List.cons_append, List.getLast?_concat] at hlast
      cases hlast
    · have hsplit : token.text = '{' :: '|' :: (body ++ ['|']) ++ ['}'] := by simp [htext]
      rw [hsplit, List.getLast?_concat] at hlast
      cases hlast
  · exact hincomplete

/-- A token that trails off is not a newline. -/
theorem kind_ne_newline_of_trailsOff (h : token ∈ (ofText text).tokens)
    (htrails : token.TrailsOff) :
    token.kind ≠ .newline := by
  intro hkind
  have hnumber : token.kind ≠ .versionNumber := by
    rw [hkind]
    decide
  rcases cases_of_mem_tokens h hnumber with ⟨hcomplete, -⟩ | ⟨-, hcutOff, -⟩
  · exact absurd (hcomplete.symm.trans htrails.1) (by decide)
  · generalize token.kind = kind, token.text = lexeme at hkind hcutOff
    cases hcutOff <;> cases hkind

/-- Nothing stands on the last line of a token that trails off. -/
theorem last_of_trailsOff (file : String) (h : token ∈ (ofText text).tokens)
    (htrails : token.TrailsOff) :
    1 ≤ (token.location file).last.line ∧ (token.location file).last.column = 0 := by
  rw [Token.last_eq_pointAhead file (text_ne_nil_of_mem_tokens h)
    (kind_ne_newline_of_trailsOff h htrails) (kind_ne_eof_of_mem_tokens h)]
  obtain ⟨init, htext⟩ := List.getLast?_eq_some_iff.1 htrails.2
  rw [Token.stop, htext, Position.after_append]
  show (1 : Int) ≤ ((token.start.after init).line + 1 : Nat) ∧ _
  exact ⟨by omega, rfl⟩

/-- Every other token ends at a character of the text or at the end of the text. -/
theorem last_isOf (file : String)
    (h : token ∈ (ofText text).tokens ++ [(ofText text).last]) (htrails : ¬token.TrailsOff) :
    (token.location file).last.IsOf text := by
  rcases List.mem_append.1 h with h | h
  · obtain ⟨before, behind, hsplit, hstart⟩ := exists_split_of_mem_tokens h
    -- A newline ends where it starts, and everything else right before the next character.
    by_cases hkind : token.kind = .newline
    · have hlast : (token.location file).last = token.start.point := by
        rw [Token.location, hkind]
        exact Point.max_eq_right (Point.le_refl _)
      rw [hlast, hstart, Position.after_start_of_append before (token.text ++ behind), ← hsplit]
      refine Position.isOf_within text ?_
      rw [hsplit, List.length_append]
      exact Nat.le_add_right ..
    · have hne := text_ne_nil_of_mem_tokens h
      obtain ⟨init, c, htext⟩ : ∃ init c, token.text = init ++ [c] :=
        ⟨_, _, (List.dropLast_append_getLast hne).symm⟩
      have hc : c ≠ '\n' := by
        rintro rfl
        exact htrails (trailsOff_of_getLast? h hkind (by rw [htext, List.getLast?_concat]))
      rw [Token.last_eq_pointAhead file hne hkind (kind_ne_eof_of_mem_tokens h), Token.stop, htext,
        Position.pointAhead_after_concat _ init hc, hstart, ← Position.after_append,
        Position.after_start_of_append _ (c :: behind)]
      have hwhole : before ++ init ++ c :: behind = text := by
        rw [hsplit, htext]
        simp only [List.append_assoc, List.singleton_append]
      rw [hwhole]
      refine Position.isOf_within text ?_
      rw [← hwhole]
      exact (List.prefix_append ..).length_le
  · obtain rfl := List.mem_singleton.1 h
    have hlast : ((ofText text).last.location file).last = (Position.start.after text).point :=
      Point.max_eq_right (Point.le_refl _)
    rw [hlast, Position.after_start]
    exact Position.isOf_within text (Nat.le_refl _)

/-- What is read of a text stands at characters of it. -/
theorem place_isOf {item : Item} (h : item ∈ (ofText text).items) :
    item.place.point.IsOf text := by
  obtain ⟨piece, hpiece, hitem⟩ := exists_pieceAt h
  have hplace := Item.place_of_mem_ofLexeme? (Option.mem_toList.2 hitem)
  obtain ⟨hlt, -⟩ := List.getElem?_eq_some_iff.1 hpiece.getElem?_eq_first
  rw [hplace]
  exact Position.isOf_within text (Nat.le_of_lt hlt)

end TokenStream

/-! ## Ranges -/

/-- The range ends with a token that trails off. -/
def Location.TrailsOff (file text : String) (range : Location) : Prop :=
  ∃ token ∈ (streamOf text).tokens, token.TrailsOff ∧ range.last = (token.location file).last

/-- The range starts at a known point. All its coordinates are known, and it ends at a point of the
text, exactly if it does not end with a token that trails off. Then only the last column is
unknown. -/
structure Location.Measured (file text : String) (range : Location) : Prop where
  first_known : range.first.Known
  line_pos : 1 ≤ range.last.line
  known_iff : range.Known ∧ range.last.IsOf text.toList ↔ ¬range.TrailsOff file text
  column_eq : range.TrailsOff file text → range.last.column = 0

section

variable {file text : String} {range : Location} {row : List Token} {token : Token}

theorem Token.firstPoint_known (h : token ∈ (streamOf text).tokens ++ [(streamOf text).last]) :
    token.firstPoint.Known := by
  have hline := (ordered_ofStream text).line_pos token h
  show (1 : Int) ≤ token.start.line ∧ (1 : Int) ≤ token.start.column + 1
  omega

theorem Location.TrailsOff.column_eq (h : range.TrailsOff file text) :
    range.last.column = 0 := by
  obtain ⟨token, htoken, htrails, hlast⟩ := h
  rw [hlast]
  exact (TokenStream.last_of_trailsOff file htoken htrails).2

theorem Location.Measured.of_isOf (hfirst : range.first.Known)
    (hlast : range.last.IsOf text.toList) :
    range.Measured file text := by
  have hcolumn := hlast.known.2
  have hnot : ¬range.TrailsOff file text := fun htrails => by
    have := htrails.column_eq
    omega
  exact ⟨hfirst, hlast.known.1, iff_of_true ⟨⟨hfirst, hlast.known⟩, hlast⟩ hnot,
    fun h => h.column_eq⟩

/-- A range that ends where a token does is measured. -/
theorem Location.Measured.of_token (hfirst : range.first.Known)
    (htoken : token ∈ (streamOf text).tokens ++ [(streamOf text).last])
    (hlast : range.last = (token.location file).last) : range.Measured file text := by
  by_cases htrails : token.TrailsOff
  · have hmem : token ∈ (streamOf text).tokens := by
      rcases List.mem_append.1 htoken with h | h
      · exact h
      · obtain rfl := List.mem_singleton.1 h
        cases htrails.1
    obtain ⟨hline, hcolumn⟩ := TokenStream.last_of_trailsOff file hmem htrails
    rw [← hlast] at hline hcolumn
    refine ⟨hfirst, hline, iff_of_false (fun h => ?_) (not_not.2 ⟨token, hmem, htrails, hlast⟩),
      fun _ => hcolumn⟩
    have := h.1.2.2
    omega
  · exact .of_isOf hfirst (hlast ▸ TokenStream.last_isOf file htoken htrails)

/-- A range from one token to another one is measured. -/
theorem Grammar.Span.measured (h : Span file row range) (hrow : row <:+: (streamOf text).tokens) :
    range.Measured file text := by
  obtain @⟨first, last, rest, -, hlast⟩ := h
  have hmem {token : Token} (h : token ∈ first :: rest) :
      token ∈ (streamOf text).tokens ++ [(streamOf text).last] :=
    List.mem_append_left _ (hrow.sublist.mem h)
  exact .of_token (Token.firstPoint_known (hmem List.mem_cons_self))
    (hmem (mem_of_lastSolid? hlast).1) rfl

theorem Location.last_through_eq_or {start : Location} (h : start.first.line ≠ 0)
    (stop : Location) :
    (start.through stop).last = start.last ∨ (start.through stop).last = stop.last := by
  rw [through, grow, if_neg h]
  split
  · exact .inl rfl
  · exact Point.max_eq_or _ _

theorem Location.Measured.through {first last : Token}
    (hfirst : first ∈ (streamOf text).tokens ++ [(streamOf text).last])
    (hlast : last ∈ (streamOf text).tokens ++ [(streamOf text).last]) :
    ((first.location file).through (last.location file)).Measured file text := by
  have hknown := Token.firstPoint_known hfirst
  have hline : (first.location file).first.line ≠ 0 := by
    rw [first.first_location]
    exact fun heq => absurd hknown.1 (by omega)
  have hstart : ((first.location file).through (last.location file)).first.Known := by
    rw [Location.first_through hline, first.first_location]
    exact hknown
  rcases Location.last_through_eq_or hline (last.location file) with h | h
  · exact .of_token hstart hfirst h
  · exact .of_token hstart hlast h

/-- Every part of a tree has a measured range. -/
theorem Grammar.IsNode.measured {node : Node} (h : IsNode file row node)
    (hrow : row <:+: (streamOf text).tokens) : node.location.Measured file text :=
  (h.span ((rises_tokens file text).sublist hrow.sublist)).measured hrow

theorem Grammar.IsRead.measured {program : Program} (h : IsRead file row program)
    (hrow : row <:+: (streamOf text).tokens) : program.location.Measured file text := by
  obtain ⟨hfirst, -⟩ := h
  exact (span_rangeOf hfirst ((rises_tokens file text).sublist hrow.sublist)).measured hrow

/-- Whatever is reported has a measured range. -/
theorem Diagnostic.measured {limit : Nat} {diagnostic : Diagnostic}
    (h : diagnostic ∈ (limitedReading limit file text).report (streamOf text)) :
    (diagnostic.location file).Measured file text := by
  rcases Reading.mem_interleave.1 h with h | h
  · obtain ⟨item, hitem, hdiagnostic⟩ := List.mem_flatMap.1 (List.mem_filter.1 h).1
    have hplace := TokenStream.place_isOf hitem
    have hpoint : diagnostic.location file = .ofPoint file item.place.point := by
      rcases Item.eq_of_mem_diagnostics hdiagnostic with
        ⟨t, rfl, rfl⟩ | ⟨c, place, rfl, rfl⟩ <;> rfl
    have hlast : (Location.ofPoint file item.place.point).last = item.place.point :=
      Point.max_eq_right (Point.le_refl _)
    rw [hpoint]
    exact .of_isOf hplace.known (hlast.symm ▸ hplace)
  · obtain ⟨token, complaint, rfl, htoken, -⟩ := (Reading.errors_ofCursor file _
      (ordered_ofStream text) (ended_ofStream text)).1 diagnostic h
    exact .of_token ((token.first_location file).symm ▸ Token.firstPoint_known htoken) htoken rfl

end

/-- Wherever a text is broken, the range of every node of its tree is measured, and so is that of
every message, a notice that there are too many apart. -/
theorem coordinates_known_iff (settings : Settings) (file text : String) :
    (∃ root, (parseText settings file text).root = some root ∧
      (Node.root root).Everywhere fun node => node.location.Measured file text) ∧
    ∀ message ∈ (parseText settings file text).errors,
      message = ErrorLog.notice settings.limit ∨
        ∃ diagnostic ∈ (limitedReading settings.limit file text).report (streamOf text),
          message = (diagnostic.location file).text ++ ": " ++ diagnostic.text ∧
            (diagnostic.location file).Measured file text := by
  constructor
  · rcases cases_root_parseText settings file text with
      ⟨row, program, hinside, hread, hroot⟩ | ⟨first, hfirst, last, hlast, hroot⟩
    · have hprogram := hread.measured hinside
      exact ⟨_, hroot, (hread.everywhere hprogram fun _ _ hinside' hnode =>
        hnode.measured (hinside'.trans hinside)).root hprogram⟩
    · have hprogram : ((first.location file).through (last.location file)).Measured file text :=
        .through hfirst hlast
      exact ⟨_, hroot, Node.Everywhere.root (.mk hprogram (by simp [Node.children, Node.fields]))
        hprogram⟩
  · intro message hmessage
    rw [parseText_errors, parseSession_errors_eq, ErrorLog.messages_foldl_add] at hmessage
    rcases List.mem_append.1 hmessage with h | h
    · obtain ⟨diagnostic, hdiagnostic, rfl⟩ := List.mem_map.1 (List.mem_of_mem_take h)
      exact .inr ⟨diagnostic, hdiagnostic, rfl, Diagnostic.measured hdiagnostic⟩
    · split at h
      · exact .inl (List.mem_singleton.1 h)
      · cases h

/-- A string that is still open behind a newline ends at column 0, and so does the tree. What is
printed of its range is taken for one within a line. -/
theorem column_unknown_behind_newline :
    let settings : Settings := { logger := .silent, limit := 9, files := .empty }
    let text := "version 1.0\n\"abcd\n"
    (∃ root, (parseText settings "f" text).root = some root ∧
      ¬(Node.root root).Everywhere fun node => node.location.Known) ∧
    (parseText settings "f" text).errors =
      ["f:2:1: unterminated string literal",
        "f:2:1..3: syntax error, unexpected string literal '\"abcd\n', expecting statement"] ∧
    ∃ diagnostic ∈ (limitedReading settings.limit "f" text).report (streamOf text),
      diagnostic.message "f" ∈ (parseText settings "f" text).errors ∧
        ¬(diagnostic.location "f").Known := by
  intro settings text
  refine ⟨⟨_, parseText_root .., fun h => ?_⟩, by decide +kernel, ?_⟩
  · have hunknown : ¬(limitedReading settings.limit "f" text).root.location.Known := by
      decide +kernel
    exact hunknown h.here
  · let literal : Token :=
      { kind := .string, text := "\"abcd\n".toList, start := ⟨12, 2, 0⟩, complete := false }
    exact ⟨.misplaced literal (.expected .statement), by decide +kernel, by decide +kernel,
      by decide +kernel⟩

end Cqasm
