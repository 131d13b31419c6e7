import Cqasm.Proofs.Acceptance
import Cqasm.Proofs.Agreement.Phrase
import Cqasm.Proofs.Agreement.Reading
import Cqasm.Proofs.Printing.Spacing

/-!
# The blanks of a text do not matter

A text with nothing wrong with its characters may be written again with one space between any two
tokens (`spacedText`), whatever blanks, comments and ends of lines it had. It has the same tokens
then, in other places, and so it is read as the same tree with other ranges and complained about as
often (`spacing_irrelevant`).
-/

set_option autoImplicit false

namespace Cqasm

/-- The tokens of a text written again with one space between two of them, and none behind the mark
of a condition. -/
def spacedText (text : String) : String :=
  .ofList (Word.spaced ((streamOf text).tokens.map Token.word))

variable {settings : Settings} {file file' text text' : String}

/-! ## Tokens -/

theorem words_spacedText (h : (streamOf text).diagnostics = []) :
    (streamOf (spacedText text)).tokens.map Token.word = (streamOf text).tokens.map Token.word ∧
      (streamOf (spacedText text)).diagnostics = [] := by
  rw [streamOf, spacedText, String.toList_ofList]
  exact tokens_spaced h

theorem word_last (text : String) : (streamOf text).last.word = { kind := .eof, text := [] } := rfl

theorem forall₂_alike_of_map_word {ts us : List Token}
    (h : ts.map Token.word = us.map Token.word) : List.Forall₂ Token.Alike ts us := by
  have hwords : List.Forall₂ (· = ·) (ts.map Token.word) (us.map Token.word) := by
    rw [List.forall₂_eq_eq_eq, h]
  rw [List.forall₂_map_left_iff, List.forall₂_map_right_iff] at hwords
  exact hwords.imp fun t u hword => ⟨congrArg Word.kind hword, congrArg Word.text hword⟩

/-! ## Readings -/

theorem Likeness.Roots.bare_eq {r s : Root} (h : (anywhere file file').Roots r s) :
    r.bare = s.bare := h

/-- Texts with the same words and nothing wrong with their characters are read alike. -/
theorem readings_of_words (limit : Nat) (file file' : String)
    (hwords : (streamOf text).tokens.map Token.word = (streamOf text').tokens.map Token.word)
    (hlexical : (streamOf text).diagnostics = []) (hlexical' : (streamOf text').diagnostics = []) :
    (Likeness.anywhere file file').Readings (limitedReading limit file text)
      (limitedReading limit file' text') := by
  apply Likeness.readings_ofCursor
  · intro more t u _
    rw [Patience.isExhausted, Patience.isExhausted, Patience.lexicalUpTo, Patience.lexicalUpTo,
      Reading.patienceFor, Reading.patienceFor, hlexical, hlexical']
    rfl
  · exact ⟨.none, forall₂_alike_of_map_word hwords, rfl, rfl⟩

theorem length_messagesOf_eq (hlexical : (streamOf text).diagnostics = []) (reading : Reading) :
    (messagesOf file text reading).length = reading.errors.length := by
  rw [length_messagesOf, hlexical]
  exact Nat.zero_add _

/-- A text with nothing wrong with its characters can be written with one space between two tokens:
it is scanned into the same tokens, up to their places, it is read as the same tree, up to the
ranges, and there are as many messages. -/
theorem spacing_irrelevant (settings : Settings) (file text : String)
    (h : (streamOf text).readAll.2 = []) :
    (streamOf (spacedText text)).readAll.1.map Token.word =
        (streamOf text).readAll.1.map Token.word ∧
      (parseText settings file (spacedText text)).root.map Root.bare =
        (parseText settings file text).root.map Root.bare ∧
      (parseText settings file (spacedText text)).errors.length =
        (parseText settings file text).errors.length := by
  obtain ⟨hwords, hlexical⟩ := words_spacedText h
  obtain ⟨hroot, herrors⟩ :=
    readings_of_words settings.limit file file hwords hlexical h
  refine ⟨?_, ?_, ?_⟩
  · rw [TokenStream.readAll, TokenStream.readAll, List.map_append, List.map_append, hwords,
      List.map_singleton, List.map_singleton, word_last, word_last]
  · rw [parseText_root, parseText_root, Option.map_some, Option.map_some, hroot.bare_eq]
  · rw [length_errors_parseText settings file text (length_messagesOf_eq h _),
      length_errors_parseText settings file (spacedText text) (length_messagesOf_eq hlexical _),
      herrors.length_eq]

/-- Comments and blanks go, and the blank that was missing between two words comes. -/
theorem spacing_irrelevant_three_statements :
    let settings : Settings := { logger := .silent, limit := 9, files := .empty }
    let text := "version\t1.0# start\nc-x b[0],q; y(]\nz"
    (streamOf text).readAll.2 = [] ∧
      spacedText text = "version 1.0 \n c-x b [ 0 ] , q ; y ( ] \n z" ∧
      (parseText settings "f" (spacedText text)).errors.length =
        (parseText settings "f" text).errors.length ∧
      (parseText settings "f" text).errors.length = 1 := by
  intro settings text
  have h : (streamOf text).readAll.2 = [] := by decide +kernel
  obtain ⟨-, -, herrors⟩ := spacing_irrelevant settings "f" text h
  exact ⟨h, by decide +kernel, herrors, by decide +kernel⟩

end Cqasm
