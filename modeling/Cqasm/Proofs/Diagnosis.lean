import Cqasm.Proofs.Acceptance
import Cqasm.Proofs.Recovery.Program

/-!
# What is reported of a text

A session that did not reach its limit reports what its reading came upon and nothing else
(`parse_of_not_aborted`), and its tree has a placeholder for each complaint of the grammar
(`placeholders_correspond`). So there is always a tree, and it is handed out exactly if there is
nothing to report.
-/

set_option autoImplicit false

namespace Cqasm

open Grammar

variable {settings : Settings} {file text : String}

/-! ## Messages -/

theorem file_location (file : String) (diagnostic : Diagnostic) :
    (diagnostic.location file).file = file := by
  cases diagnostic with
  | stray | unterminated => rfl
  | misplaced token =>
    show (token.location file).file = file
    unfold Token.location
    split <;> rfl

/-- A message starts with the name of the file and a colon. -/
theorem toList_message (file : String) (diagnostic : Diagnostic) :
    ∃ rest, (diagnostic.message file).toList = file.toList ++ ':' :: rest := by
  unfold Diagnostic.message Location.text
  rw [file_location]
  split <;> simp only [String.toList_append, List.append_assoc]
  · exact ⟨_, rfl⟩
  · exact ⟨_, rfl⟩

/-- No text is a file name with a colon behind it and at once some words without a colon in front of
that file name: the name would repeat the words to its end, and then they would have the colon. -/
theorem append_ne_of_colon_notMem {words : List Char} (hwords : words ≠ []) (hcolon : ':' ∉ words)
    (name rest rest' : List Char) : words ++ (name ++ rest) ≠ name ++ ':' :: rest' := by
  intro h
  -- If the words are over before the name, the rest of the name has the same problem; otherwise
  -- the colon falls into the words.
  rcases List.append_eq_append_iff.1 h with ⟨shorter, rfl, hshorter⟩ | ⟨more, rfl, hmore⟩
  · rw [List.append_assoc] at hshorter
    exact append_ne_of_colon_notMem hwords hcolon shorter rest rest' hshorter
  · cases more with
    | nil =>
      rw [List.append_nil] at hwords hcolon
      obtain ⟨c, name, rfl⟩ := List.exists_cons_of_ne_nil hwords
      cases hmore
      exact hcolon List.mem_cons_self
    | cons c more =>
      cases hmore
      exact hcolon (by simp)
termination_by name.length
decreasing_by
  have := List.length_pos_iff.2 hwords
  subst name
  rw [List.length_append]
  omega

/-! ## Reports -/

theorem isLexical_of_mem_diagnostics {stream : TokenStream} {diagnostic : Diagnostic}
    (h : diagnostic ∈ stream.diagnostics) : diagnostic.isLexical := by
  obtain ⟨item, -, hdiagnostic⟩ := List.mem_flatMap.1 h
  rcases Item.eq_of_mem_diagnostics hdiagnostic with ⟨t, -, rfl⟩ | ⟨c, place, -, rfl⟩ <;> rfl

/-- Interleaving two series of diagnostics keeps the order of each. -/
theorem filter_interleave {lexical complaints : List Diagnostic}
    (hlexical : ∀ d ∈ lexical, d.isLexical) (hcomplaints : ∀ d ∈ complaints, d.isLexical = false) :
    (Reading.interleave lexical complaints).filter (!·.isLexical) = complaints := by
  induction complaints generalizing lexical with
  | nil => simpa [Reading.interleave] using hlexical
  | cons complaint complaints ih =>
    obtain ⟨hcomplaint, hcomplaints⟩ := List.forall_mem_cons.1 hcomplaints
    have htake : (lexical.takeWhile (·.offset ≤ complaint.offset)).filter (!·.isLexical) = [] := by
      rw [List.filter_eq_nil_iff]
      intro d hd
      simp [hlexical d ((List.takeWhile_sublist _).mem hd)]
    have hdrop : ∀ d ∈ lexical.dropWhile (·.offset ≤ complaint.offset), d.isLexical :=
      fun d hd => hlexical d ((List.dropWhile_sublist _).mem hd)
    rw [Reading.interleave, List.filter_append, htake, List.nil_append,
      List.filter_cons_of_pos (by simp [hcomplaint]), ih hdrop hcomplaints]

/-- What is wrong with the grammar is what the reading complained about. -/
theorem filter_report {parts : List Part} {tokens : List Token} {reading : Reading}
    (h : Diagnosed file tokens reading parts) :
    (reading.report (streamOf text)).filter (!·.isLexical) = reading.errors := by
  refine filter_interleave ?_ ?_
  · intro d hd
    exact isLexical_of_mem_diagnostics (List.mem_filter.1 hd).1
  · intro d hd
    rw [← h.complaints] at hd
    exact isLexical_of_complaint h.sound hd

/-! ## Sessions -/

theorem aborted_parseSession :
    (parseSession settings (.string text file)).errors.aborted ↔
      settings.limit < (messagesOf file text (limitedReading settings.limit file text)).length := by
  rw [parseSession_errors_eq, ErrorLog.aborted_foldl_add_iff]

/-- A session that has not given up read the whole text and kept every message. -/
theorem parse_of_not_aborted
    (h : (parseSession settings (.string text file)).errors.aborted = false) :
    limitedReading settings.limit file text = wholeReading file text ∧
      (parseText settings file text).errors = messagesOf file text (wholeReading file text) := by
  have hlimit : (messagesOf file text (limitedReading settings.limit file text)).length ≤
      settings.limit := by
    rw [← Nat.not_lt, ← aborted_parseSession, h]
    decide
  have hwhole := limitedReading_eq_of_length_le hlimit
  refine ⟨hwhole, ?_⟩
  rw [parseText_errors, parseSession_errors_eq, ErrorLog.messages_foldl_add_of_le hlimit, hwhole]

theorem diagnosed_wholeReading (file text : String) :
    ∃ parts, Diagnosed file (streamOf text).tokens (wholeReading file text) parts ∧
      (wholeReading file text).stop = (streamOf text).last :=
  diagnosed_ofCursor file (endless_patience text) (ordered_ofStream text) (ended_ofStream text)

/-- A whole reading reports everything that is wrong with the characters. -/
theorem report_wholeReading (file text : String) :
    (wholeReading file text).report (streamOf text) =
      Reading.interleave (streamOf text).diagnostics (wholeReading file text).errors := by
  obtain ⟨_, -, hstop⟩ := diagnosed_wholeReading file text
  rw [Reading.report, filter_diagnostics_of_stop hstop]

theorem length_messagesOf_wholeReading (file text : String) :
    (messagesOf file text (wholeReading file text)).length =
      (streamOf text).diagnostics.length + (wholeReading file text).errors.length := by
  rw [messagesOf, List.length_map, report_wholeReading, Reading.length_interleave]

/-- A session whose limit has room for everything that is wrong does not give up. -/
theorem aborted_of_length_le
    (h : (messagesOf file text (wholeReading file text)).length ≤ settings.limit) :
    (parseSession settings (.string text file)).errors.aborted = false := by
  have hlimited : limitedReading settings.limit file text = wholeReading file text := by
    apply limitedReading_eq_of_errors_le
    rwa [length_messagesOf_wholeReading, Nat.add_comm] at h
  rw [← Bool.not_eq_true, aborted_parseSession, hlimited]
  exact Nat.not_lt.2 h

/-! ## Results -/

/-- A result without messages hands out its tree. -/
theorem Result.tree_of_errors_eq_nil {result : Result} {root : Root}
    (hroot : result.root = some root) (h : result.errors = []) : result.tree = .ok root := by
  unfold Result.tree
  rw [h, hroot]

/-- A result with messages hands out all of them instead. -/
theorem Result.tree_of_errors_ne_nil {result : Result} (h : result.errors ≠ []) :
    ∃ error, result.tree = .error error ∧ error.errors = result.errors := by
  unfold Result.tree
  cases herrors : result.errors with
  | nil => exact absurd herrors h
  | cons first more => exact ⟨_, rfl, rfl⟩

/-- The words in place of a missing message have no colon, and every message has one. -/
theorem message_ne_incomplete (file : String) (diagnostic : Diagnostic) :
    diagnostic.message file ≠ "no parse errors returned, but AST is incomplete" := by
  intro h
  obtain ⟨rest, hrest⟩ := toList_message file diagnostic
  rw [h] at hrest
  have hcolon : ':' ∈ "no parse errors returned, but AST is incomplete".toList := by
    rw [hrest]
    simp
  exact absurd hcolon (by decide +kernel)

theorem message_ne_failed (file reason : String) (diagnostic : Diagnostic) :
    diagnostic.message file ≠ "Failed to parse " ++ file ++ ": " ++ reason := by
  intro h
  obtain ⟨rest, hrest⟩ := toList_message file diagnostic
  rw [h, String.toList_append, String.toList_append, String.toList_append, List.append_assoc,
    List.append_assoc] at hrest
  exact append_ne_of_colon_notMem (by decide +kernel) (by decide +kernel) _ _ _ hrest

/-- The messages of a whole reading are none exactly if its tree is complete and all characters of
the text are in place. -/
theorem messagesOf_wholeReading_eq_nil_iff :
    messagesOf file text (wholeReading file text) = [] ↔
      (wholeReading file text).errors = [] ∧ (streamOf text).diagnostics = [] := by
  obtain ⟨_, -, hstop⟩ := diagnosed_wholeReading file text
  rw [messagesOf_eq_nil_iff, filter_diagnostics_of_stop hstop]
  exact and_comm

/-- Complaints of the grammar and placeholders correspond in the order in which they start, and the
result of a parse within its limit is told by them. -/
theorem placeholders_correspond
    (h : (parseSession settings (.string text file)).errors.aborted = false) :
    let report := (limitedReading settings.limit file text).report (streamOf text)
    let complaints := report.filter (!·.isLexical)
    let result := parseText settings file text
    ∃ root, result.root = some root ∧
      result.errors = report.map (·.message file) ∧
      (∃ order : List Node, order.Perm (Node.root root).placeholders ∧
        (order.Pairwise fun a b => a.location.first.Before b.location.first) ∧
        List.Forall₂ (Marks file (partStarts (streamOf text).tokens root.program)) order
          complaints) ∧
      ((Node.root root).isComplete ↔ complaints = []) ∧
      (result.errors = [] ↔ (Node.root root).isComplete ∧ (streamOf text).readAll.2 = []) ∧
      "no parse errors returned, but AST is incomplete" ∉ result.errors ∧
      (∀ reason, "Failed to parse " ++ file ++ ": " ++ reason ∉ result.errors) ∧
      (result.errors = [] → result.tree = .ok root) ∧
      (result.errors ≠ [] →
        ∃ error, result.tree = .error error ∧ error.errors = result.errors) := by
  intro report complaints result
  have hcomplaints : complaints = report.filter (!·.isLexical) := rfl
  have hroot : result.root = some (limitedReading settings.limit file text).root :=
    parseText_root settings file text
  obtain ⟨hreading, herrors⟩ := parse_of_not_aborted h
  obtain ⟨parts, hdiagnosed, -⟩ := diagnosed_wholeReading file text
  have hreport : report = (wholeReading file text).report (streamOf text) := by
    rw [← hreading]
  rw [hreport, filter_report hdiagnosed] at hcomplaints
  rw [hreading] at hroot
  have hmessages : result.errors = report.map (·.message file) := by
    rw [hreport]
    exact herrors
  obtain ⟨order, hperm, hpairwise, hmarks⟩ := hdiagnosed.matched
  -- A tree has as many placeholders as there are complaints, so that it lacks both or neither.
  have hcomplete : (Node.root (wholeReading file text).root).isComplete ↔ complaints = [] := by
    rw [Node.isComplete_iff, hcomplaints, ← List.length_eq_zero_iff, ← hperm.length_eq,
      hmarks.length_eq, List.length_eq_zero_iff]
  refine ⟨_, hroot, hmessages, ⟨order, hperm, hpairwise, ?_⟩, hcomplete, ?_, ?_, ?_,
    Result.tree_of_errors_eq_nil hroot, Result.tree_of_errors_ne_nil⟩
  · rw [hcomplaints]
    exact hmarks
  · rw [hcomplete, hcomplaints, herrors]
    exact messagesOf_wholeReading_eq_nil_iff
  · intro hmem
    rw [hmessages] at hmem
    obtain ⟨diagnostic, -, heq⟩ := List.mem_map.1 hmem
    exact message_ne_incomplete file diagnostic heq
  · intro reason hmem
    rw [hmessages] at hmem
    obtain ⟨diagnostic, -, heq⟩ := List.mem_map.1 hmem
    exact message_ne_failed file reason diagnostic heq

/-- In three lines of which two are broken there are two placeholders. -/
theorem placeholders_correspond_two_of_three :
    let settings : Settings := { logger := .silent, limit := 5, files := .empty }
    let text := "version 1.0\ny ]\nx q[0]\nz q[0"
    (parseSession settings (.string text "f")).errors.aborted = false ∧
      ∃ root, (parseText settings "f" text).root = some root ∧
        (Node.root root).placeholders.length = 2 ∧
        ∃ error, (parseText settings "f" text).tree = .error error ∧ error.errors.length = 2 := by
  intro settings text
  have h : (parseSession settings (.string text "f")).errors.aborted = false := by decide +kernel
  obtain ⟨root, hroot, -, ⟨order, hperm, -, hmarks⟩, -, -, -, -, -, herror⟩ :=
    placeholders_correspond h
  have hcomplaints : (((limitedReading settings.limit "f" text).report (streamOf text)).filter
      (!·.isLexical)).length = 2 := by
    decide +kernel
  have hlength : (parseText settings "f" text).errors.length = 2 := by decide +kernel
  obtain ⟨error, htree, herrors⟩ := herror fun hnil => by
    rw [hnil] at hlength
    cases hlength
  refine ⟨h, root, hroot, ?_, error, htree, ?_⟩
  · rw [← hperm.length_eq, hmarks.length_eq, hcomplaints]
  · rw [herrors, hlength]

end Cqasm
