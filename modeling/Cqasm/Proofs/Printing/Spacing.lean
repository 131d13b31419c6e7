import Cqasm.Proofs.Lexical.Munch
import Cqasm.Proofs.Printing.Scan

/-!
# Words one space apart

The words of a text without anything wrong with its characters are a row (`Word.row_of_cutFrom`). So
they may be written with one space between two of them (`Word.spaced`), and the text is cut back
into the same words (`tokens_spaced`).
-/

set_option autoImplicit false

namespace Cqasm

open Lexeme Lexical

/-- The word that a piece is, if it is a token. -/
def Lexeme.word? (piece : Lexeme) : Option Word :=
  match piece.role with
  | .token kind _ => some { kind, text := piece.text }
  | _ => none

namespace Word

/-- Words with one space between two of them, and none behind the mark of a condition. -/
def spaced : List Word → List Char
  | [] => []
  | [w] => w.text
  | w :: w' :: words =>
    w.text ++ ((if w.kind = .conditionPrefix then [] else [' ']) ++ spaced (w' :: words))

variable {afterVersion : Bool} {w : Word} {words : List Word}

/-! ## The words of a text -/

/-- The mark of a condition has one spelling and a word behind it. -/
theorem eq_of_isLexeme_condition {text behind : List Char}
    (h : IsLexeme .conditionPrefix text behind) :
    text = ['c', '-'] ∧ startsWith isWordStart behind := by
  generalize hkind : Kind.conditionPrefix = kind at h
  have hkeywords : ∀ entry ∈ Kind.keywords, entry.2 ≠ .conditionPrefix := by decide
  have hoperators : ∀ entry ∈ Kind.operators, entry.2 ≠ .conditionPrefix := by decide
  cases h with
  | condition hbehind => exact ⟨rfl, hbehind⟩
  | keyword hmem => exact absurd hkind.symm (hkeywords _ hmem)
  | operator hmem => exact absurd hkind.symm (hoperators _ hmem)
  | number => split at hkind <;> cases hkind
  | newline | name | string | json => cases hkind

/-- Behind the mark of a condition the text goes on with a word. -/
theorem leading_eq_condition {c : Char} {rest : List Char}
    (hrole : (leading afterVersion c rest).role = .token .conditionPrefix true) :
    leading afterVersion c rest = condition.piece ∧
      startsWith isWordStart (rest.drop (leading afterVersion c rest).more.length) := by
  have hdigit : ¬(afterVersion ∧ c.isDigit) := by
    rintro ⟨hafter, hc⟩
    rw [leading_of_isDigit hc, number, if_pos hafter] at hrole
    cases hrole
  obtain ⟨htext, hbehind⟩ := eq_of_isLexeme_condition (isLexeme_leading hrole hdigit)
  refine ⟨?_, hbehind⟩
  generalize leading afterVersion c rest = piece at hrole htext
  obtain ⟨role, first, more⟩ := piece
  cases hrole
  cases htext
  rfl

/-- The mark of a condition is the one word that does not stand alone. -/
theorem Stands.kind_ne (h : w.Stands afterVersion) : w.kind ≠ .conditionPrefix := by
  intro hkind
  have hpiece : leading afterVersion w.first w.text.tail = w.piece := h
  have hrole : w.piece.role = .token .conditionPrefix true := congrArg (Role.token · true) hkind
  obtain ⟨-, hbehind⟩ := leading_eq_condition (hpiece ▸ hrole)
  rw [hpiece, show w.piece.more = w.text.tail from rfl, List.drop_length] at hbehind
  cases hbehind

/-- One space apart is one of the ways in which words may be printed. -/
theorem Row.spaced_eq (h : Row afterVersion words) : spaced words = Style.plain.spaced words := by
  induction h with
  | nil => rfl
  | @cons _ w words hstands _ ih =>
    cases words with
    | nil => rfl
    | cons w' words =>
      rw [spaced, Style.spaced, Style.between, if_neg hstands.kind_ne,
        if_neg hstands.ne_condition, ih]
      rfl
  | condition _ _ ih =>
    rw [spaced, ih]
    rfl

/-- A token that is cut off a text is cut off when it stands alone. -/
theorem stands_of_leading {c : Char} {rest : List Char} {kind : Kind}
    (hrole : (leading afterVersion c rest).role = .token kind true)
    (hkind : kind ≠ .conditionPrefix) :
    Stands afterVersion { kind, text := (leading afterVersion c rest).text } := by
  have hfirst : (leading afterVersion c rest).first = c := first_leading ..
  have hsplit : (leading afterVersion c rest).more ++
      rest.drop (leading afterVersion c rest).more.length = rest :=
    List.prefix_iff_eq_append.1 (more_isPrefix_leading ..)
  generalize hpiece : leading afterVersion c rest = piece at hrole hfirst hsplit ⊢
  -- Nothing behind the piece made it what it is, as it is complete and no condition.
  have hstandalone : piece.Standalone := by
    intro kind' complete hrole'
    cases hrole.symm.trans hrole'
    exact ⟨rfl, hkind⟩
  have hself : leading afterVersion c piece.more = piece := by
    rw [← hsplit] at hpiece
    refine (leading_left ?_ ?_).trans hpiece
    · rwa [hpiece]
    · rw [hpiece]
  obtain ⟨role, first, more⟩ := piece
  obtain rfl : role = .token kind true := hrole
  obtain rfl : first = c := hfirst
  exact hself

/-- A text that starts like a word has one for its first word. -/
theorem exists_words_of_startsWith {text : List Char} (h : startsWith isWordStart text)
    (afterVersion : Bool) :
    ∃ w words, (cutFrom afterVersion 0 text).filterMap word? = w :: words ∧
      isWordStart w.first := by
  cases text with
  | nil => cases h
  | cons d later =>
    obtain ⟨kind, more, hword, -⟩ := isLexeme_word h later
    rw [cutFrom_cons, leading_of_isWordStart h, hword]
    exact ⟨{ kind, text := d :: more }, _, rfl, h⟩

/-- The words of a text without anything wrong with its characters are a row. -/
theorem row_of_cutFrom {taken : Nat} {text : List Char}
    (h : ∀ piece ∈ cutFrom afterVersion taken text, piece.Clean) :
    Row afterVersion ((cutFrom afterVersion taken text).filterMap word?) := by
  fun_induction cutFrom afterVersion taken text with
  | case1 => exact .nil
  | case2 _ _ _ _ ih => exact ih h
  | case3 afterVersion c rest piece ih =>
    obtain ⟨hpiece, hpieces⟩ := List.forall_mem_cons.1 h
    have ih := ih hpieces
    -- By what the piece is. Only a token adds a word, and only `version` changes the mode.
    cases hrole : piece.role with
    | blank | comment =>
      have hmode : isAfterVersion afterVersion piece = afterVersion := by
        unfold isAfterVersion
        rw [hrole]
      rw [List.filterMap_cons_none (by unfold word?; rw [hrole]), hmode]
      rwa [hmode] at ih
    | stray =>
      rw [Clean, hrole] at hpiece
      cases hpiece
    | token kind complete =>
      rw [Clean, hrole] at hpiece
      cases complete with
      | false => cases hpiece
      | true =>
        have hmode : isAfterVersion afterVersion piece = decide (kind = .version) := by
          unfold isAfterVersion
          rw [hrole]
        rw [List.filterMap_cons_some (b := { kind, text := piece.text })
          (by unfold word?; rw [hrole]), hmode]
        rw [hmode] at ih
        -- the mark of a condition needs to see that a word comes next
        by_cases hkind : kind = .conditionPrefix
        · subst hkind
          obtain ⟨hcondition, hbehind⟩ := leading_eq_condition hrole
          obtain ⟨w, words, hwords, hstart⟩ := exists_words_of_startsWith hbehind false
          rw [← cutFrom_eq_drop] at hwords
          change Row false ((cutFrom false piece.more.length rest).filterMap word?) at ih
          change Row afterVersion
            (_ :: (cutFrom false piece.more.length rest).filterMap word?)
          rw [show (cutFrom false piece.more.length rest).filterMap word? = _ from hwords] at ih ⊢
          rw [show piece = condition.piece from hcondition]
          exact .condition hstart ih
        · exact .cons (stands_of_leading hrole hkind) ih

end Word

/-! ## Texts -/

/-- Blanks and comments leave no word, nor do stray characters. -/
theorem map_word_tokensOf (place : Position) (pieces : List Lexeme) :
    (tokensOf place pieces).map Token.word = pieces.filterMap Lexeme.word? := by
  induction pieces generalizing place with
  | nil => rfl
  | cons piece pieces ih =>
    rw [tokensOf_cons, List.map_append, ih, List.filterMap_cons]
    unfold Item.ofLexeme? Lexeme.word?
    cases piece.role <;> rfl

/-- The words of a text with nothing wrong with its characters may be written one space apart. -/
theorem tokens_spaced {text : String} (h : (TokenStream.ofText text.toList).diagnostics = []) :
    let words := (TokenStream.ofText text.toList).tokens.map Token.word
    let spaced := TokenStream.ofText (Word.spaced words)
    spaced.tokens.map Token.word = words ∧ spaced.diagnostics = [] := by
  intro words spaced
  have hwords : words = (cut text.toList).filterMap word? := map_word_tokensOf .start _
  have hrow : Word.Row false words := by
    rw [hwords]
    exact Word.row_of_cutFrom (Item.diagnostics_ofLexemes_eq_nil_iff.1 h)
  have hcut : (cut (String.ofList (Word.spaced words)).toList).filter isSolid =
      words.map Word.piece := by
    rw [String.toList_ofList, hrow.spaced_eq]
    exact Style.cut_spaced hrow
  have htokens := tokens_of_words hcut hrow.text_eq
  rwa [String.toList_ofList] at htokens

end Cqasm
