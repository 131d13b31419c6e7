import Cqasm.Proofs.Lexical.Munch
import Cqasm.Proofs.Scanning

/-!
# Tokens are lexemes

A token that is read of a text is a lexeme of its kind, or a literal that the end of the text cuts
off (`TokenStream.cases_of_mem_tokens`). It is reported in the latter case only
(`TokenStream.unterminated_mem_diagnostics_iff`).
-/

set_option autoImplicit false

namespace Cqasm.TokenStream

open Lexical

variable {text : List Char} {token : Token}

/-- A token is a lexeme where it is complete, and where it is not nothing stands behind it. -/
theorem cases_of_mem_tokens (h : token ∈ (ofText text).tokens)
    (hkind : token.kind ≠ .versionNumber) :
    (token.complete = true ∧ ∃ behind, IsLexeme token.kind token.text behind) ∨
      (token.complete = false ∧ IsCutOff token.kind token.text ∧
        token.stop.offset = text.length) := by
  obtain ⟨piece, hpiece, -, htext, hrole⟩ := exists_pieceAt_of_mem_tokens h
  obtain ⟨before, afterVersion, c, rest, hsplit, hoffset, rfl⟩ := hpiece.exists_leading
  cases hcomplete : token.complete with
  | true =>
    rw [hcomplete] at hrole
    rw [htext]
    exact .inl ⟨rfl, _, isLexeme_of_role hrole hkind⟩
  | false =>
    rw [hcomplete] at hrole
    have hcutOff := isCutOff_of_leading hrole
    have hleading : (Lexeme.leading afterVersion c rest).text = c :: rest := by
      rw [leading_of_isCutOff hcutOff]
      rfl
    rw [hleading] at htext
    refine .inr ⟨rfl, htext ▸ hcutOff, ?_⟩
    rw [Token.stop, Position.offset_after, ← hoffset, htext, hsplit, List.length_append]

/-- What is neither the number of a version nor a literal with delimiters is always a lexeme. -/
theorem isLexeme_of_mem_tokens (h : token ∈ (ofText text).tokens)
    (hkind : token.kind ∉ [Kind.versionNumber, .string, .json]) :
    ∃ behind, IsLexeme token.kind token.text behind := by
  have hnumber : token.kind ≠ .versionNumber := fun heq => hkind (heq ▸ List.mem_cons_self)
  rcases cases_of_mem_tokens h hnumber with ⟨-, hlexeme⟩ | ⟨-, hcutOff, -⟩
  · exact hlexeme
  · generalize token.kind = kind, token.text = lexeme at hkind hcutOff
    cases hcutOff <;> simp at hkind

/-- A token whose kind has one spelling is spelled that way. -/
theorem text_eq_spelling {spelling : List Char} (h : token ∈ (ofText text).tokens)
    (hkind : token.kind.spelling? = some spelling) : token.text = spelling := by
  have hplain : token.kind ∉ [Kind.versionNumber, .string, .json] := by
    intro hmem
    have hall : ∀ kind ∈ [Kind.versionNumber, .string, .json], kind.spelling? = none := by decide
    rw [hall _ hmem] at hkind
    cases hkind
  obtain ⟨behind, hlexeme⟩ := isLexeme_of_mem_tokens h hplain
  exact hlexeme.eq_spelling hkind

theorem unterminated_mem_diagnostics_iff (h : token ∈ (ofText text).tokens) :
    .unterminated token ∈ (ofText text).diagnostics ↔ token.complete = false := by
  constructor
  · intro hmem
    obtain ⟨item, -, hitem⟩ := List.mem_flatMap.1 hmem
    rcases Item.eq_of_mem_diagnostics hitem with ⟨t, rfl, heq⟩ | ⟨_, _, _, heq⟩
    · cases heq
      change Diagnostic.unterminated token ∈ Diagnostic.ofToken token at hitem
      unfold Diagnostic.ofToken at hitem
      split at hitem
      · cases hitem
      · next hincomplete => exact Bool.not_eq_true _ ▸ hincomplete
    · cases heq
  · intro hincomplete
    refine List.mem_flatMap.2 ⟨_, mem_tokens_iff.1 h, ?_⟩
    show _ ∈ Diagnostic.ofToken token
    rw [Diagnostic.ofToken, hincomplete]
    exact List.mem_singleton_self _

/-! ## The first token -/

section

variable {c : Char} {more behind : List Char} {kind : Kind}

theorem items_of_leading
    (h : Lexeme.leading false c (more ++ behind) = Lexeme.ofKind kind c more) :
    ∃ later, (ofText (c :: (more ++ behind))).items =
        .token { kind, text := c :: more, start := .start, complete := true } :: later ∧
      (behind = [] → later = []) := by
  have hdrop : (more ++ behind).drop (Lexeme.ofKind kind c more).more.length = behind :=
    List.drop_left
  rw [ofText, Lexeme.cut, Lexeme.cutFrom_cons, h, hdrop]
  refine ⟨_, rfl, ?_⟩
  rintro rfl
  rfl

/-- A text that starts with a token is read from it on. -/
theorem next_of_leading
    (h : Lexeme.leading false c (more ++ behind) = Lexeme.ofKind kind c more) :
    (ofText (c :: (more ++ behind))).next.token =
        { kind, text := c :: more, start := .start, complete := true } ∧
      (ofText (c :: (more ++ behind))).next.report = [] := by
  obtain ⟨later, hitems, -⟩ := items_of_leading h
  rw [next, hitems]
  exact ⟨rfl, rfl⟩

/-- A text that is a single piece is a single token. -/
theorem delivers_of_leading (h : Lexeme.leading false c more = Lexeme.ofKind kind c more)
    (hkind : kind ≠ .eof) :
    (ofText (c :: more)).Delivers
      [{ kind, text := c :: more, start := .start, complete := true },
        .atEnd (Position.start.after (c :: more))] [] := by
  have h' : Lexeme.leading false c (more ++ []) = Lexeme.ofKind kind c more := by
    rwa [List.append_nil]
  obtain ⟨later, hitems, hlater⟩ := items_of_leading h'
  rw [List.append_nil, hlater rfl] at hitems
  have hstream : ofText (c :: more) =
      { items := [.token { kind, text := c :: more, start := .start, complete := true }]
        last := .atEnd (Position.start.after (c :: more)) } :=
    congrArg (TokenStream.mk · _) hitems
  rw [hstream]
  exact .more hkind (.last rfl)

end

end Cqasm.TokenStream
