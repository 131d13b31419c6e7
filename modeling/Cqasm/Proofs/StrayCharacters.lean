import Cqasm.Proofs.Lexical.Blanking
import Cqasm.Proofs.ReportOrder

/-!
# Stray characters are as good as spaces

A text with a space in place of every stray character (`blankedText`) is scanned into the same
tokens in the same places. Reading looks at tokens only, so the tree is the same one with the same
ranges, and what is missing from the report are the stray characters and nothing else
(`strays_transparent`).
-/

set_option autoImplicit false

namespace Cqasm

/-- Whether a diagnostic is about a character that starts no token. -/
def Diagnostic.isStray : Diagnostic → Bool
  | stray .. => true
  | _ => false

/-- Whether a report has the character at an offset among the stray ones. -/
def reportsStray (report : List Diagnostic) (offset : Nat) : Bool :=
  report.any fun diagnostic => diagnostic.isStray && diagnostic.offset = offset

/-- The text with a space in place of every character that is reported as stray when it is
scanned. -/
def blankedText (text : String) : String :=
  .ofList (text.toList.mapIdx fun offset c =>
    if reportsStray (streamOf text).readAll.2 offset then ' ' else c)

/-! ## Places -/

namespace Lexeme

variable {text text' : List Char} {c c' : Char}

/-- Neither the blank nor what it replaces is a newline. -/
theorem Replaces.next_eq (h : Replaces c' c) (here : Position) : here.next c' = here.next c := by
  rcases h with rfl | ⟨rfl, hc⟩
  · rfl
  · rw [Position.next, Position.next, if_neg (by decide), if_neg hc.ne_newline]

theorem Blanks.after_eq (h : Blanks text' text) (here : Position) :
    here.after text' = here.after text := by
  induction h generalizing here with
  | nil => rfl
  | cons hc _ ih => rw [Position.after_cons, Position.after_cons, hc.next_eq, ih]

end Lexeme

/-! ## Items -/

namespace Item

variable {place : Position} {piece : Lexeme} {pieces : List Lexeme}

/-- A piece that is no token leaves no item once it is blanked. -/
theorem toList_ofLexeme?_blanked (place : Position) (piece : Lexeme) :
    (ofLexeme? place piece.blanked).toList =
      (ofLexeme? place piece).toList.filter (·.token?.isSome) := by
  unfold ofLexeme? Lexeme.blanked
  cases hrole : piece.role <;> simp [hrole, token?]

/-- Only the stray characters are no longer there. -/
theorem ofLexemes_blanked (place : Position) (h : Lexeme.InertStrays pieces) :
    ofLexemes place (pieces.map Lexeme.blanked) =
      (ofLexemes place pieces).filter (·.token?.isSome) := by
  induction pieces generalizing place with
  | nil => rfl
  | cons piece pieces ih =>
    obtain ⟨hpiece, hpieces⟩ := List.forall_mem_cons.1 h
    rw [List.map_cons, ofLexemes, ofLexemes, List.filter_append, toList_ofLexeme?_blanked,
      (Lexeme.blanks_text_blanked hpiece).after_eq, ih _ hpieces]

theorem filterMap_token?_filter (items : List Item) :
    (items.filter (·.token?.isSome)).filterMap token? = items.filterMap token? := by
  induction items with
  | nil => rfl
  | cons item items ih =>
    cases item with
    | token t => exact congrArg (t :: ·) ih
    | stray => exact ih

theorem flatMap_diagnostics_filter (items : List Item) :
    (items.filter (·.token?.isSome)).flatMap diagnostics =
      (items.flatMap diagnostics).filter (!·.isStray) := by
  induction items with
  | nil => rfl
  | cons item items ih =>
    rw [List.flatMap_cons, List.filter_append, ← ih]
    cases item with
    | stray => rfl
    | token t =>
      have hall : (Diagnostic.ofToken t).filter (!·.isStray) = Diagnostic.ofToken t := by
        unfold Diagnostic.ofToken
        split <;> rfl
      exact congrArg (· ++ _) hall.symm

/-! ## Texts -/

theorem reportsStray_append (report report' : List Diagnostic) (offset : Nat) :
    reportsStray (report ++ report') offset =
      (reportsStray report offset || reportsStray report' offset) :=
  List.any_append

theorem reportsStray_ofLexeme? (place : Position) (piece : Lexeme) (offset : Nat) :
    reportsStray ((ofLexeme? place piece).toList.flatMap diagnostics) offset =
      (piece.role = .stray && place.offset = offset) := by
  unfold ofLexeme?
  cases hrole : piece.role with
  | blank | comment => rfl
  | stray =>
    show (true && decide (place.offset = offset) || false) =
      (true && decide (place.offset = offset))
    rw [Bool.or_false]
  | token kind complete => cases complete <;> rfl

/-- Nothing is reported in front of where the pieces start. -/
theorem reportsStray_ofLexemes_of_lt {offset : Nat} (h : offset < place.offset) :
    reportsStray ((ofLexemes place pieces).flatMap diagnostics) offset = false := by
  refine List.any_eq_false.2 fun diagnostic hdiagnostic => ?_
  obtain ⟨item, hitem, hdiagnostic⟩ := List.mem_flatMap.1 hdiagnostic
  have hle : place.offset ≤ diagnostic.offset := by
    rw [diagnostic.offset_eq, place_of_mem_diagnostics hdiagnostic]
    rcases (place_of_mem_ofLexemes hitem).1 with hplace | hplace
    · rw [hplace]
    · exact Nat.le_of_lt hplace.offset_lt
  simp only [Bool.and_eq_true, decide_eq_true_eq, not_and]
  omega

/-- Putting spaces in the reported places is putting them in place of the pieces. -/
theorem mapIdx_reportsStray (place : Position) (h : Lexeme.InertStrays pieces) :
    ((pieces.flatMap Lexeme.text).mapIdx fun i c =>
      if reportsStray ((ofLexemes place pieces).flatMap diagnostics) (place.offset + i) then ' '
      else c) = pieces.flatMap (·.blanked.text) := by
  induction pieces generalizing place with
  | nil => rfl
  | cons piece pieces ih =>
    obtain ⟨hpiece, hpieces⟩ := List.forall_mem_cons.1 h
    have hbehind : (place.after piece.text).offset = place.offset + piece.text.length :=
      place.offset_after piece.text
    have hpos : 0 < piece.text.length := Nat.succ_pos _
    rw [List.flatMap_cons, List.flatMap_cons, List.mapIdx_append, ofLexemes, List.flatMap_append]
    simp only [reportsStray_append, reportsStray_ofLexeme?]
    congr 1
    -- what is reported of later pieces lies behind this one
    · have hlater {i : Nat} (hi : i < piece.text.length) : reportsStray
          ((ofLexemes (place.after piece.text) pieces).flatMap diagnostics) (place.offset + i) =
            false :=
        reportsStray_ofLexemes_of_lt (by omega)
      by_cases hrole : piece.role = .stray
      · rw [Lexeme.blanked_of_stray hrole, Lexeme.text, (hpiece hrole).2]
        simp [hrole, Lexeme.text]
      · rw [Lexeme.blanked_of_ne_stray hrole]
        refine List.ext_getElem (List.length_mapIdx ..) fun i _ hi => ?_
        rw [List.getElem_mapIdx, hlater hi]
        exact if_neg (by simp [hrole])
    · rw [← ih _ hpieces]
      congr 1
      funext i c
      have hne : decide (place.offset = place.offset + (i + piece.text.length)) = false :=
        decide_eq_false (by omega)
      rw [hne, Bool.and_false, Bool.false_or, hbehind, Nat.add_right_comm, Nat.add_assoc]

end Item

namespace TokenStream

variable (text : String)

/-- Blanking a text is blanking its pieces. -/
theorem toList_blankedText :
    (blankedText text).toList = (Lexeme.cut text.toList).flatMap (·.blanked.text) := by
  have hmapIdx := Item.mapIdx_reportsStray .start (Lexeme.inertStrays_cut text.toList)
  rw [Lexeme.flatMap_text_cut] at hmapIdx
  rw [blankedText, String.toList_ofList, ← hmapIdx]
  congr 1
  funext i c
  rw [show Position.start.offset = 0 from rfl, Nat.zero_add]
  rfl

/-- Without its stray characters, a text has the same tokens in the same places. -/
theorem items_blankedText :
    (streamOf (blankedText text)).items =
      (streamOf text).items.filter (·.token?.isSome) := by
  show Item.ofLexemes .start (Lexeme.cut (blankedText text).toList) = _
  rw [toList_blankedText, Lexeme.cut_blanked]
  exact Item.ofLexemes_blanked _ (Lexeme.inertStrays_cut _)

theorem tokens_blankedText : (streamOf (blankedText text)).tokens = (streamOf text).tokens := by
  rw [tokens, items_blankedText, Item.filterMap_token?_filter]
  rfl

theorem diagnostics_blankedText :
    (streamOf (blankedText text)).diagnostics =
      (streamOf text).diagnostics.filter (!·.isStray) := by
  rw [diagnostics, items_blankedText, Item.flatMap_diagnostics_filter]
  rfl

theorem last_blankedText : (streamOf (blankedText text)).last = (streamOf text).last := by
  have hblanks := (Lexeme.inertStrays_cut text.toList).blanks
  rw [← toList_blankedText, Lexeme.flatMap_text_cut] at hblanks
  exact congrArg Token.atEnd (hblanks.after_eq _)

end TokenStream

/-! ## Readings -/

section

variable {patience patience' : Patience}

/-- Without an end to patience it does not matter what is wrong with the characters. -/
theorem readStatements_eq_of_endless (hpatience : patience.Endless)
    (hpatience' : patience'.Endless) (file : String) (complaints complaints' : Nat) (c : Cursor) :
    readStatements patience file complaints c = readStatements patience' file complaints' c := by
  fun_induction readStatements patience file complaints c generalizing complaints' with
  | case1 complaints c h => rw [readStatements_of_nil h]
  | case2 complaints c token tokens h hexhausted =>
    rw [Patience.isExhausted, hpatience] at hexhausted
    cases hexhausted
  | case3 complaints c token tokens h hexhausted read rest ih =>
    rw [readStatements_of_cons h (hpatience' _), show rest = _ from ih _]

theorem Reading.ofCursor_eq_of_endless (hpatience : patience.Endless)
    (hpatience' : patience'.Endless) (file : String) (c : Cursor) :
    ofCursor patience file c = ofCursor patience' file c := by
  unfold ofCursor
  dsimp only
  split
  · unfold ofVersion
    dsimp only
    rw [readStatements_eq_of_endless hpatience hpatience']
  · unfold ofBrokenVersion
    rw [Patience.isExhausted, Patience.isExhausted, hpatience, hpatience']

end

/-- The grammar sees the tokens and nothing else. -/
theorem wholeReading_blankedText (file text : String) :
    wholeReading file (blankedText text) = wholeReading file text := by
  have hcursor : Cursor.ofStream (streamOf (blankedText text)) = .ofStream (streamOf text) := by
    rw [Cursor.ofStream, Cursor.ofStream, TokenStream.tokens_blankedText,
      TokenStream.last_blankedText]
  rw [wholeReading, Reading.ofStream, hcursor]
  exact Reading.ofCursor_eq_of_endless (endless_patience _) (endless_patience _) file _

/-! ## Reports -/

namespace Reading

variable {p : Diagnostic → Bool} {early late lexical complaints : List Diagnostic}
  {complaint : Diagnostic}

/-- A complaint comes behind all that is wrong up to its place and in front of everything else. -/
theorem interleave_append_cons (hearly : ∀ d ∈ early, d.offset ≤ complaint.offset)
    (hlate : ∀ d ∈ late, complaint.offset < d.offset) :
    interleave (early ++ late) (complaint :: complaints) =
      early ++ complaint :: interleave late complaints := by
  have hall : ∀ d ∈ early, decide (d.offset ≤ complaint.offset) :=
    fun d hd => decide_eq_true (hearly d hd)
  rw [interleave, List.takeWhile_append_of_pos hall, List.dropWhile_append_of_pos hall]
  cases late with
  | nil => simp
  | cons d late => simp [Nat.not_le.2 (hlate d List.mem_cons_self)]

/-- Leaving out some of what is wrong with the characters leaves everything else where it is. -/
theorem filter_interleave_eq (hsorted : lexical.Pairwise fun a b => a.offset ≤ b.offset)
    (hcomplaints : ∀ d ∈ complaints, p d) :
    (interleave lexical complaints).filter p = interleave (lexical.filter p) complaints := by
  induction complaints generalizing lexical with
  | nil => rfl
  | cons complaint complaints ih =>
    obtain ⟨hcomplaint, hcomplaints⟩ := List.forall_mem_cons.1 hcomplaints
    have hearly : ∀ d ∈ lexical.takeWhile (·.offset ≤ complaint.offset),
        d.offset ≤ complaint.offset := by
      intro d hd
      exact of_decide_eq_true (List.all_eq_true.1 List.all_takeWhile d hd)
    have hlate : ∀ d ∈ lexical.dropWhile (·.offset ≤ complaint.offset),
        complaint.offset < d.offset :=
      fun d hd => offset_lt_of_mem_dropWhile hsorted hd
    rw [interleave, List.filter_append, List.filter_cons_of_pos hcomplaint,
      ih (hsorted.sublist (List.dropWhile_sublist _)) hcomplaints,
      ← interleave_append_cons (fun d hd => hearly d (List.mem_filter.1 hd).1)
        (fun d hd => hlate d (List.mem_filter.1 hd).1),
      ← List.filter_append, List.takeWhile_append_dropWhile]

end Reading

variable {settings : Settings} {file text : String}

theorem isStray_of_mem_errors {diagnostic : Diagnostic}
    (h : diagnostic ∈ (wholeReading file text).errors) : diagnostic.isStray = false := by
  obtain ⟨habout, -⟩ := Reading.errors_ofCursor file
    (Reading.patienceFor (streamOf text) fun _ => false) (ordered_ofStream text)
    (ended_ofStream text)
  obtain ⟨token, complaint, rfl, -⟩ := habout diagnostic h
  rfl

/-- The report loses the stray characters and keeps the rest in its order. -/
theorem report_blankedText (file text : String) :
    (wholeReading file (blankedText text)).report (streamOf (blankedText text)) =
      ((wholeReading file text).report (streamOf text)).filter (!·.isStray) := by
  rw [report_wholeReading, report_wholeReading, wholeReading_blankedText,
    TokenStream.diagnostics_blankedText,
    Reading.filter_interleave_eq (TokenStream.sorted_diagnostics text.toList)]
  intro diagnostic hdiagnostic
  rw [isStray_of_mem_errors hdiagnostic]
  rfl

/-- With spaces in place of its stray characters, a text has the same tokens in the same places. If
a parse of the text stays within its limit, it is read as the same tree with the same ranges, and
all that is said of it is said again but for the stray characters. -/
theorem strays_transparent (settings : Settings) (file text : String) :
    (streamOf (blankedText text)).readAll =
      ((streamOf text).readAll.1, (streamOf text).readAll.2.filter (!·.isStray)) ∧
    ((parseSession settings (.string text file)).errors.aborted = false →
      let report := (limitedReading settings.limit file text).report (streamOf text)
      (parseText settings file text).errors = report.map (·.message file) ∧
        (parseText settings file (blankedText text)).root = (parseText settings file text).root ∧
        (parseText settings file (blankedText text)).errors =
          (report.filter (!·.isStray)).map (·.message file)) := by
  refine ⟨?_, fun h => ?_⟩
  · rw [TokenStream.readAll, TokenStream.tokens_blankedText, TokenStream.last_blankedText,
      TokenStream.diagnostics_blankedText]
    rfl
  · obtain ⟨hreading, herrors⟩ := parse_of_not_aborted h
    have hlength : (messagesOf file text (wholeReading file text)).length ≤ settings.limit := by
      rw [← Nat.not_lt, ← hreading, ← aborted_parseSession, h]
      decide
    have hblanked : messagesOf file (blankedText text) (wholeReading file (blankedText text)) =
        (((wholeReading file text).report (streamOf text)).filter (!·.isStray)).map
          (·.message file) := by
      rw [messagesOf, report_blankedText]
    -- fewer messages stay within a limit that more of them stay within
    have hlength' : (messagesOf file (blankedText text)
        (wholeReading file (blankedText text))).length ≤ settings.limit := by
      rw [hblanked, List.length_map]
      rw [messagesOf, List.length_map] at hlength
      exact Nat.le_trans (List.length_filter_le ..) hlength
    obtain ⟨hreading', herrors'⟩ := parse_of_not_aborted (aborted_of_length_le hlength')
    refine ⟨?_, ?_, ?_⟩
    · rw [herrors, hreading]
      rfl
    · rw [parseText_root, parseText_root, hreading', hreading, wholeReading_blankedText]
    · rw [herrors', hblanked, hreading]

/-- A dollar sign and a lone ampersand come to nothing, the one in the string to itself. -/
theorem strays_transparent_two_of_three :
    let settings : Settings := { logger := .silent, limit := 9, files := .empty }
    let text := "version$1.0\nx & ] \"$\""
    (parseSession settings (.string text "f")).errors.aborted = false ∧
      blankedText text = "version 1.0\nx   ] \"$\"" ∧
      (parseText settings "f" text).errors =
        ["f:1:8: unexpected character '$'",
          "f:2:3: unexpected character '&'",
          "f:2:5: syntax error, unexpected ']', expecting newline or ';'"] ∧
      (parseText settings "f" (blankedText text)).errors =
        ["f:2:5: syntax error, unexpected ']', expecting newline or ';'"] := by
  intro settings text
  have h : (parseSession settings (.string text "f")).errors.aborted = false := by
    decide +kernel
  obtain ⟨-, hparse⟩ := strays_transparent settings "f" text
  obtain ⟨herrors, -, herrors'⟩ := hparse h
  refine ⟨h, by decide +kernel, herrors.trans ?_, herrors'.trans ?_⟩ <;> decide +kernel

end Cqasm
