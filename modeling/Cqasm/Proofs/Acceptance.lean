import Cqasm.Proofs.Grammar.Whole
import Cqasm.Proofs.Lexical.Places
import Cqasm.Proofs.Recognition.Program
import Cqasm.Proofs.Session.Text

/-!
# Which texts are accepted

A text is parsed without a message exactly if no character of it is out of place and its tokens are
a program of the grammar (`accepts_iff_isProgram`). The limit on messages plays no part: a text that
is accepted has nothing to report, and a text that is not has a first message whatever the limit.

Reading the whole text is sound and complete for the grammar (`wholeReading_sound`,
`wholeReading_complete`). What is left is the session around it: its log keeps what the reading came
upon (`parseSession_errors_eq`), and a limited reading with nothing to report is the whole one
(`limitedReading_eq_of_messagesOf_eq_nil`).
-/

set_option autoImplicit false

namespace Cqasm

open Grammar

variable {settings : Settings} {file text : String}

theorem ended_ofStream (text : String) : (Cursor.ofStream (streamOf text)).Ended where
  last_kind := rfl
  kind_ne _ h := TokenStream.kind_ne_eof_of_mem_tokens h

theorem isComplete_root {program : Program} (h : (Node.program program).Whole) :
    (Node.root (Reading.rootOf program)).isComplete :=
  Node.isComplete_iff.2 (whole_root h)

theorem endless_patience (text : String) :
    (Reading.patienceFor (streamOf text) fun _ => false).Endless :=
  fun _ => rfl

/-- Reading all of a text without a complaint is reading a program. -/
theorem wholeReading_sound (h : (wholeReading file text).errors = []) :
    ∃ program, IsProgram file (streamOf text).readAll.1 program ∧
      (wholeReading file text).root = Reading.rootOf program :=
  Reading.ofCursor_sound (endless_patience text) (ended_ofStream text) h

theorem wholeReading_complete {program : Program}
    (h : IsProgram file (streamOf text).readAll.1 program) :
    wholeReading file text =
      { root := Reading.rootOf program, errors := [], stop := (streamOf text).last } := by
  have hcursor : IsProgram file
      ((Cursor.ofStream (streamOf text)).tokens ++ [(Cursor.ofStream (streamOf text)).last])
      program := h
  exact Reading.ofCursor_complete (endless_patience text) hcursor

theorem isComplete_wholeReading (h : (wholeReading file text).errors = []) :
    (Node.root (wholeReading file text).root).isComplete := by
  obtain ⟨program, hprogram, hroot⟩ := wholeReading_sound h
  rw [hroot]
  exact isComplete_root (yields_program hprogram)

/-- A reading that ends where the text does has come past everything wrong with its characters. -/
theorem filter_diagnostics_of_stop {stop : Token} (h : stop = (streamOf text).last) :
    (streamOf text).diagnostics.filter (·.offset ≤ stop.start.offset) =
      (streamOf text).diagnostics := by
  rw [h, List.filter_eq_self]
  intro diagnostic hdiagnostic
  exact decide_eq_true (TokenStream.offset_le_of_mem_diagnostics hdiagnostic)

theorem length_messagesOf (reading : Reading) :
    (messagesOf file text reading).length =
      ((streamOf text).diagnostics.filter (·.offset ≤ reading.stop.start.offset)).length +
        reading.errors.length := by
  rw [messagesOf, List.length_map, Reading.report, Reading.length_interleave]

/-- The report of a reading is empty if there is nothing in it. -/
theorem messagesOf_eq_nil_iff {reading : Reading} :
    messagesOf file text reading = [] ↔
      (streamOf text).diagnostics.filter (·.offset ≤ reading.stop.start.offset) = [] ∧
        reading.errors = [] := by
  rw [← List.length_eq_zero_iff, length_messagesOf, Nat.add_eq_zero_iff, List.length_eq_zero_iff,
    List.length_eq_zero_iff]

/-- A limited reading with an empty report is the whole one. -/
theorem limitedReading_eq_of_messagesOf_eq_nil {limit : Nat}
    (h : messagesOf file text (limitedReading limit file text) = []) :
    limitedReading limit file text = wholeReading file text :=
  limitedReading_eq_of_length_le (by rw [h]; exact Nat.zero_le _)

/-- An empty report comes with a complete tree, so that there is nothing for a session to add. -/
theorem parseSession_errors_eq (settings : Settings) (file text : String) :
    (parseSession settings (.string text file)).errors =
      (messagesOf file text (limitedReading settings.limit file text)).foldl ErrorLog.add
        (.empty settings.limit) := by
  rw [parseSession_errors]
  dsimp only
  by_cases hempty : messagesOf file text (limitedReading settings.limit file text) = []
  · have hcomplete : (Node.root (limitedReading settings.limit file text).root).isComplete := by
      have hwhole := limitedReading_eq_of_messagesOf_eq_nil hempty
      rw [hwhole] at hempty ⊢
      exact isComplete_wholeReading (messagesOf_eq_nil_iff.1 hempty).2
    rw [hcomplete, Bool.not_true, Bool.and_false, if_neg (by decide)]
  · have hlog : ((messagesOf file text (limitedReading settings.limit file text)).foldl
        ErrorLog.add (.empty settings.limit)).messages.isEmpty = false := by
      rw [← Bool.not_eq_true, ErrorLog.isEmpty_foldl_add_iff]
      exact hempty
    rw [hlog, Bool.false_and, if_neg (by decide)]

theorem parseText_errors (settings : Settings) (file text : String) :
    (parseText settings file text).errors =
      (parseSession settings (.string text file)).errors.messages.toList := by
  rw [parseText, parse, Session.result]

/-- How many messages are kept depends on how many there are. -/
theorem length_errors_parseText (settings : Settings) (file text : String) {n : Nat}
    (h : (messagesOf file text (limitedReading settings.limit file text)).length = n) :
    (parseText settings file text).errors.length =
      if n ≤ settings.limit then n else settings.limit + 1 := by
  rw [parseText_errors, parseSession_errors_eq]
  subst h
  split
  · next hle => rw [ErrorLog.messages_foldl_add_of_le hle]
  · next hlt =>
    have hlt := Nat.lt_of_not_le hlt
    rw [ErrorLog.messages_foldl_add_of_lt hlt, List.length_append, List.length_take,
      Nat.min_eq_left (Nat.le_of_lt hlt)]
    rfl

theorem parseText_root (settings : Settings) (file text : String) :
    (parseText settings file text).root = some (limitedReading settings.limit file text).root := by
  rw [parseText, parse, Session.result, parseSession_root]

/-- There are no messages exactly if there is nothing to report. -/
theorem parseText_errors_eq_nil_iff :
    (parseText settings file text).errors = [] ↔
      messagesOf file text (limitedReading settings.limit file text) = [] := by
  rw [parseText_errors, parseSession_errors_eq, Array.toList_eq_nil_iff, ← Array.isEmpty_iff,
    ErrorLog.isEmpty_foldl_add_iff]

/-- A text in which all characters are in place and the tokens are a program is read as that
program, whatever the limit. -/
theorem limitedReading_eq_of_isProgram {program : Program} (limit : Nat)
    (hlexical : (streamOf text).diagnostics = [])
    (h : IsProgram file (streamOf text).readAll.1 program) :
    limitedReading limit file text =
      { root := Reading.rootOf program, errors := [], stop := (streamOf text).last } := by
  have hreading := wholeReading_complete h
  rw [← hreading]
  apply limitedReading_eq_of_errors_le
  rw [hreading, hlexical]
  exact Nat.zero_le _

theorem parseText_of_isProgram {program : Program} (settings : Settings)
    (hlexical : (streamOf text).diagnostics = [])
    (h : IsProgram file (streamOf text).readAll.1 program) :
    (parseText settings file text).errors = [] ∧
      (parseText settings file text).root = some (Reading.rootOf program) := by
  have hreading := limitedReading_eq_of_isProgram settings.limit hlexical h
  rw [parseText_errors_eq_nil_iff, parseText_root, hreading, messagesOf_eq_nil_iff, hlexical]
  exact ⟨⟨rfl, rfl⟩, rfl⟩

/-- The tokens of an accepted text are the program that was read. -/
theorem isProgram_of_errors_eq_nil (h : (parseText settings file text).errors = []) :
    (streamOf text).diagnostics = [] ∧ ∃ program,
      IsProgram file (streamOf text).readAll.1 program ∧
        (parseText settings file text).root = some (Reading.rootOf program) := by
  rw [parseText_errors_eq_nil_iff] at h
  have hwhole := limitedReading_eq_of_messagesOf_eq_nil h
  rw [hwhole] at h
  obtain ⟨hlexical, herrors⟩ := messagesOf_eq_nil_iff.1 h
  obtain ⟨program, hprogram, hroot⟩ := wholeReading_sound herrors
  refine ⟨?_, program, hprogram, ?_⟩
  · rwa [wholeReading_complete hprogram, filter_diagnostics_of_stop rfl] at hlexical
  · rw [parseText_root, hwhole, hroot]

/-- A text is accepted exactly if scanning it reports nothing and its tokens are a program. -/
theorem accepts_iff_isProgram (settings : Settings) (file text : String) :
    (parseText settings file text).errors = [] ↔
      (TokenStream.ofText text.toList).readAll.2 = [] ∧
        ∃ program, IsProgram file (TokenStream.ofText text.toList).readAll.1 program := by
  constructor
  · intro h
    obtain ⟨hlexical, program, hprogram, -⟩ := isProgram_of_errors_eq_nil h
    exact ⟨hlexical, program, hprogram⟩
  · rintro ⟨hlexical, program, hprogram⟩
    exact (parseText_of_isProgram settings hlexical hprogram).1

end Cqasm
