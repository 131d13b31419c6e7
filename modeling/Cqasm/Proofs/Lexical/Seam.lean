import Cqasm.Proofs.Lexical.Delimiter
import Cqasm.Proofs.Lexical.Places

/-!
# Two texts with a newline between them

A newline is where a text can be cut in two without a trace, as long as nothing is wrong with the
characters of the first part: its tokens are those that it has by itself
(`TokenStream.tokens_append_newline`), and the second part is read as a text of its own that starts
further down. A comment at the end of the first part is over with its line, and the number that is
still missing behind a keyword `version` is no longer waited for.
-/

set_option autoImplicit false

namespace Cqasm

/-- That there is nothing wrong with the characters of a piece. -/
def Lexeme.Clean (piece : Lexeme) : Prop :=
  match piece.role with
  | .stray => False
  | .token _ complete => complete
  | _ => True

namespace Item

theorem ofLexemes_append (place : Position) (left right : List Lexeme) :
    ofLexemes place (left ++ right) =
      ofLexemes place left ++ ofLexemes (place.after (left.flatMap Lexeme.text)) right := by
  induction left generalizing place with
  | nil => rfl
  | cons piece left ih =>
    rw [List.cons_append, ofLexemes, ofLexemes, ih, List.flatMap_cons, Position.after_append,
      List.append_assoc]

/-- Nothing is reported of pieces exactly if there is nothing wrong with any of them. -/
theorem diagnostics_ofLexemes_eq_nil_iff {place : Position} {pieces : List Lexeme} :
    (ofLexemes place pieces).flatMap diagnostics = [] ↔ ∀ piece ∈ pieces, piece.Clean := by
  induction pieces generalizing place with
  | nil => simp [ofLexemes]
  | cons piece pieces ih =>
    have hpiece : (ofLexeme? place piece).toList.flatMap diagnostics = [] ↔ piece.Clean := by
      unfold ofLexeme? Lexeme.Clean
      cases piece.role with
      | token kind complete => cases complete <;> simp [diagnostics, Diagnostic.ofToken]
      | comment | blank | stray => simp [diagnostics]
    rw [ofLexemes, List.flatMap_append, List.append_eq_nil_iff, hpiece, ih, List.forall_mem_cons]

/-- Pieces of which nothing is reported end at the end of a line at the latest. -/
theorem closed_of_diagnostics_eq_nil {place : Position} {pieces : List Lexeme}
    (h : (ofLexemes place pieces).flatMap diagnostics = []) :
    ∀ piece ∈ pieces, piece.Closed '\n' := by
  intro piece hpiece
  have hclean := diagnostics_ofLexemes_eq_nil_iff.1 h piece hpiece
  unfold Lexeme.Closed
  unfold Lexeme.Clean at hclean
  cases hrole : piece.role with
  | token kind complete => rwa [hrole] at hclean
  | comment => rfl
  | blank | stray => trivial

end Item

namespace Lexeme

theorem cut_append_newline {text : List Char} (h : ∀ piece ∈ cut text, piece.Closed '\n')
    (behind : List Char) :
    cut (text ++ '\n' :: behind) = cut text ++ ofKind .newline '\n' [] :: cut behind :=
  cutFrom_append (by decide) (Nat.zero_le _) h

end Lexeme

/-! ## Streams -/

/-- The place behind a text and the newline that ends it. -/
def Position.below (text : List Char) : Position :=
  (start.after text).next '\n'

/-- The token of a newline. -/
def Token.newline (place : Position) : Token :=
  { kind := .newline, text := ['\n'], start := place, complete := true }

namespace TokenStream

/-- The stream of a text that starts at a place. -/
def ofTextAt (place : Position) (text : List Char) : TokenStream where
  items := Item.ofLexemes place (Lexeme.cut text)
  last := .atEnd (place.after text)

variable {text : List Char}

/-- Behind a text without anything to report and a newline, another text is read as a text of its
own that starts there. -/
theorem ofText_append_newline (h : (ofText text).diagnostics = []) (behind : List Char) :
    ofText (text ++ '\n' :: behind) =
      { items := (ofText text).items ++ .token (.newline (Position.start.after text)) ::
          (ofTextAt (.below text) behind).items
        last := (ofTextAt (.below text) behind).last } := by
  have hclosed := Item.closed_of_diagnostics_eq_nil h
  unfold ofText
  rw [Lexeme.cut_append_newline hclosed, Item.ofLexemes_append, Lexeme.flatMap_text_cut,
    Position.after_append]
  rfl

theorem tokens_append_newline (h : (ofText text).diagnostics = []) (behind : List Char) :
    (ofText (text ++ '\n' :: behind)).tokens =
      (ofText text).tokens ++ .newline (Position.start.after text) ::
        (ofTextAt (.below text) behind).tokens := by
  rw [ofText_append_newline h, tokens, List.filterMap_append]
  rfl

theorem diagnostics_append_newline (h : (ofText text).diagnostics = []) (behind : List Char) :
    (ofText (text ++ '\n' :: behind)).diagnostics =
      (ofTextAt (.below text) behind).diagnostics := by
  rw [ofText_append_newline h, diagnostics, List.flatMap_append, ← diagnostics, h,
    List.nil_append]
  rfl

end TokenStream

end Cqasm
