import Cqasm.Proofs.Lexical.Tiling
import Cqasm.Token.Stream

/-!
# The places of what stands in a text

Walking over a text leads from place to place, and every place comes `Position.Before` all later
ones, by its offset and in reading order. The tokens and stray characters of a text come one before
the other, and all of them before its end (`Item.pairwise_ofLexemes`, `TokenStream.before_last`).
-/

set_option autoImplicit false

namespace Cqasm

/-! ## Positions -/

namespace Position

/-- A place comes before another one: by what was read up to it, and in reading order. -/
structure Before (here there : Position) : Prop where
  offset_lt : here.offset < there.offset
  reading : here.line < there.line ∨ here.line = there.line ∧ here.column < there.column

/-- Earlier by offset, and earlier in reading order, each of them passed on. -/
theorem Before.trans {a b c : Position} (h : a.Before b) (h' : b.Before c) : a.Before c where
  offset_lt := Nat.lt_trans h.offset_lt h'.offset_lt
  reading := by
    have := h.reading
    have := h'.reading
    omega

/-- A newline leads to the next line, anything else to the next column. -/
theorem before_next (here : Position) (c : Char) : here.Before (here.next c) := by
  unfold next
  split
  · exact ⟨Nat.lt_succ_self _, .inl (Nat.lt_succ_self _)⟩
  · exact ⟨Nat.lt_succ_self _, .inr ⟨rfl, Nat.lt_succ_self _⟩⟩

/-- Walking over something leads to a later place. -/
theorem before_after (here : Position) (c : Char) (text : List Char) :
    here.Before (here.after (c :: text)) := by
  induction text generalizing here c with
  | nil => exact here.before_next c
  | cons d text ih => exact (here.before_next c).trans (ih (here.next c) d)

end Position

/-! ## Diagnostics -/

namespace Diagnostic

/-- The place of the character that a diagnostic is about. -/
def place : Diagnostic → Position
  | stray _ place => place
  | unterminated literal => literal.start
  | misplaced token _ => token.start

theorem offset_eq (diagnostic : Diagnostic) : diagnostic.offset = diagnostic.place.offset := by
  cases diagnostic <;> rfl

end Diagnostic

/-! ## Items -/

namespace Item

/-- The place of the first character. -/
def place : Item → Position
  | token t => t.start
  | stray _ place => place

theorem offset_eq (item : Item) : item.offset = item.place.offset := by
  cases item <;> rfl

/-- What is reported of an item is that its literal never ends, or that it is a stray character. -/
theorem eq_of_mem_diagnostics {item : Item} {diagnostic : Diagnostic}
    (h : diagnostic ∈ item.diagnostics) :
    (∃ t, item = .token t ∧ diagnostic = .unterminated t) ∨
      ∃ c place, item = .stray c place ∧ diagnostic = .stray c place := by
  cases item with
  | token t =>
    change diagnostic ∈ Diagnostic.ofToken t at h
    unfold Diagnostic.ofToken at h
    split at h
    · cases h
    · exact .inl ⟨t, rfl, List.mem_singleton.1 h⟩
  | stray c place => exact .inr ⟨c, place, rfl, List.mem_singleton.1 h⟩

/-- A diagnostic is about the place of the item that it is made of. -/
theorem place_of_mem_diagnostics {item : Item} {diagnostic : Diagnostic}
    (h : diagnostic ∈ item.diagnostics) : diagnostic.place = item.place := by
  rcases eq_of_mem_diagnostics h with ⟨t, rfl, rfl⟩ | ⟨c, place, rfl, rfl⟩ <;> rfl

theorem offset_of_mem_diagnostics {item : Item} {diagnostic : Diagnostic}
    (h : diagnostic ∈ item.diagnostics) : diagnostic.offset = item.offset := by
  rw [diagnostic.offset_eq, place_of_mem_diagnostics h, item.offset_eq]

theorem place_of_mem_ofLexeme? {here : Position} {piece : Lexeme} {item : Item}
    (h : item ∈ (ofLexeme? here piece).toList) : item.place = here := by
  unfold ofLexeme? at h
  split at h
  · cases h
  · cases h
  · obtain rfl := List.mem_singleton.1 h
    rfl
  · obtain rfl := List.mem_singleton.1 h
    rfl

/-- Walking over the first piece comes first. -/
theorem after_flatMap_cons (here : Position) (piece : Lexeme) (pieces : List Lexeme) :
    here.after ((piece :: pieces).flatMap Lexeme.text) =
      (here.after piece.text).after (pieces.flatMap Lexeme.text) := by
  rw [List.flatMap_cons, Position.after_append]

/-- Items come no earlier than the first piece and before the end of the last. -/
theorem place_of_mem_ofLexemes {here : Position} {pieces : List Lexeme} {item : Item}
    (h : item ∈ ofLexemes here pieces) :
    (item.place = here ∨ here.Before item.place) ∧
      item.place.Before (here.after (pieces.flatMap Lexeme.text)) := by
  induction pieces generalizing here with
  | nil => cases h
  | cons piece pieces ih =>
    have hstep : here.Before (here.after piece.text) := here.before_after ..
    rw [after_flatMap_cons]
    -- of the first piece, or of one behind it, where the walk goes on
    rcases List.mem_append.1 h with h | h
    · have hplace := place_of_mem_ofLexeme? h
      refine ⟨.inl hplace, ?_⟩
      rw [hplace, ← after_flatMap_cons]
      exact here.before_after ..
    · obtain ⟨hplace, hend⟩ := ih h
      refine ⟨.inr ?_, hend⟩
      rcases hplace with hplace | hplace
      · rwa [hplace]
      · exact hstep.trans hplace

/-- No item is empty, so each one is over before the next one starts. -/
theorem pairwise_ofLexemes (here : Position) (pieces : List Lexeme) :
    (ofLexemes here pieces).Pairwise fun a b => a.place.Before b.place := by
  induction pieces generalizing here with
  | nil => exact .nil
  | cons piece pieces ih =>
    rw [ofLexemes, List.pairwise_append]
    refine ⟨?_, ih _, ?_⟩
    · cases ofLexeme? here piece <;> simp
    · intro a ha b hb
      rw [place_of_mem_ofLexeme? ha]
      have hstep : here.Before (here.after piece.text) := here.before_after ..
      rcases (place_of_mem_ofLexemes hb).1 with hplace | hplace
      · rwa [hplace]
      · exact hstep.trans hplace

theorem stop_of_ofLexeme? {here : Position} {piece : Lexeme} {token : Token}
    (h : ofLexeme? here piece = some (.token token)) : token.stop = here.after piece.text := by
  unfold ofLexeme? at h
  split at h <;> cases h
  rfl

/-- A token is over where the next item starts, or before. -/
theorem pairwise_stop_ofLexemes (here : Position) (pieces : List Lexeme) :
    (ofLexemes here pieces).Pairwise fun a b =>
      ∀ token, a = .token token → b.place = token.stop ∨ token.stop.Before b.place := by
  induction pieces generalizing here with
  | nil => exact .nil
  | cons piece pieces ih =>
    rw [ofLexemes, List.pairwise_append]
    refine ⟨?_, ih _, ?_⟩
    · cases ofLexeme? here piece <;> simp
    · rintro _ ha b hb token rfl
      rw [stop_of_ofLexeme? (Option.mem_toList.1 ha)]
      exact (place_of_mem_ofLexemes hb).1

end Item

/-! ## Kinds -/

namespace Lexeme

/-- A piece that is no token, or one that is not the end of the text. -/
def Inner (piece : Lexeme) : Prop :=
  ∀ kind complete, piece.role = .token kind complete → kind ≠ .eof

/-- One kind other than the end of the text is enough, since a piece has only one. -/
theorem inner_of_kind {kind : Kind} {complete : Bool} {piece : Lexeme}
    (h : piece.role = .token kind complete) (hkind : kind ≠ .eof) : piece.Inner := by
  intro kind' complete' h'
  cases h.symm.trans h'
  exact hkind

/-- No keyword is spelled like the end of the text. -/
theorem inner_word (c : Char) (rest : List Char) : (word c rest).Inner := by
  unfold word
  split
  · exact inner_of_kind rfl (by decide)
  · refine inner_of_kind rfl ?_
    cases h : Kind.ofKeyword? (c :: rest.takeWhile isWordPart) with
    | none => decide
    | some kind =>
      obtain ⟨entry, hentry, rfl⟩ := Option.map_eq_some_iff.1 h
      have hall : ∀ entry ∈ Kind.keywords, entry.2 ≠ .eof := by decide
      exact hall entry (List.mem_of_find?_eq_some hentry)

theorem inner_number (afterVersion : Bool) (c : Char) (rest : List Char) :
    (number afterVersion c rest).Inner := by
  unfold number
  split
  · exact inner_of_kind rfl (by decide)
  · refine inner_of_kind rfl ?_
    split <;> decide

/-- And no operator is. -/
theorem inner_symbol (c : Char) (rest : List Char) : (symbol c rest).Inner := by
  unfold symbol
  split
  · next spelling kind hfind =>
    have hall : ∀ entry ∈ Kind.operators, entry.2 ≠ .eof := by decide
    exact inner_of_kind rfl (hall _ (List.mem_of_find?_eq_some hfind))
  · rintro _ _ ⟨⟩

/-- No piece of a text is the end of it. -/
theorem inner_leading (afterVersion : Bool) (c : Char) (rest : List Char) :
    (leading afterVersion c rest).Inner := by
  unfold leading
  split
  · rintro _ _ ⟨⟩
  split
  · rintro _ _ ⟨⟩
  split
  · exact inner_of_kind rfl (by decide)
  split
  · exact inner_number afterVersion c rest
  split
  · exact inner_word c rest
  split
  · exact inner_of_kind rfl (by decide)
  split
  · exact inner_of_kind rfl (by decide)
  · exact inner_symbol c rest

theorem inner_of_mem_cutFrom {afterVersion : Bool} {taken : Nat} {text : List Char}
    {piece : Lexeme} (h : piece ∈ cutFrom afterVersion taken text) : piece.Inner := by
  fun_induction cutFrom afterVersion taken text with
  | case1 => cases h
  | case2 _ _ _ _ ih => exact ih h
  | case3 afterVersion c rest first ih =>
    rcases List.mem_cons.1 h with rfl | h
    · exact inner_leading afterVersion c rest
    · exact ih h

end Lexeme

/-! ## Streams -/

namespace Item

/-- An item comes from one of the pieces. -/
theorem mem_ofLexemes {here : Position} {pieces : List Lexeme} {item : Item}
    (h : item ∈ ofLexemes here pieces) :
    ∃ piece ∈ pieces, ∃ place, ofLexeme? place piece = some item := by
  induction pieces generalizing here with
  | nil => cases h
  | cons piece pieces ih =>
    rcases List.mem_append.1 h with h | h
    · exact ⟨piece, List.mem_cons_self, here, Option.mem_toList.1 h⟩
    · obtain ⟨piece', hpiece, place, hplace⟩ := ih h
      exact ⟨piece', List.mem_cons_of_mem _ hpiece, place, hplace⟩

theorem role_of_ofLexeme? {place : Position} {piece : Lexeme} {token : Token}
    (h : ofLexeme? place piece = some (.token token)) :
    piece.role = .token token.kind token.complete := by
  unfold ofLexeme? at h
  split at h <;> cases h
  assumption

end Item

namespace TokenStream

variable {text : List Char}

theorem mem_tokens_iff {stream : TokenStream} {token : Token} :
    token ∈ stream.tokens ↔ .token token ∈ stream.items := by
  rw [tokens, List.mem_filterMap]
  constructor
  · rintro ⟨item, hitem, h⟩
    cases item with
    | token t =>
      cases h
      exact hitem
    | stray => cases h
  · intro h
    exact ⟨_, h, rfl⟩

/-- The end of a text is no token among the others. -/
theorem kind_ne_eof_of_mem_tokens {token : Token} (h : token ∈ (ofText text).tokens) :
    token.kind ≠ .eof := by
  obtain ⟨piece, hpiece, place, hplace⟩ := Item.mem_ofLexemes (mem_tokens_iff.1 h)
  exact Lexeme.inner_of_mem_cutFrom hpiece _ _ (Item.role_of_ofLexeme? hplace)

/-- Everything in a text comes before its end. -/
theorem before_last {item : Item} (h : item ∈ (ofText text).items) :
    item.place.Before (ofText text).last.start := by
  have hend := (Item.place_of_mem_ofLexemes h).2
  rwa [Lexeme.flatMap_text_cut] at hend

/-- What is wrong with the characters comes up in the order of their places. -/
theorem pairwise_diagnostics (text : List Char) :
    (ofText text).diagnostics.Pairwise fun a b => a.place.Before b.place := by
  rw [diagnostics, List.pairwise_flatMap]
  constructor
  · intro item _
    cases item with
    | token t =>
      show (Diagnostic.ofToken t).Pairwise _
      unfold Diagnostic.ofToken
      split
      · exact .nil
      · exact List.pairwise_singleton _ _
    | stray c place => exact List.pairwise_singleton _ _
  · refine (Item.pairwise_ofLexemes _ _).imp fun hbefore d hd e he => ?_
    rw [Item.place_of_mem_diagnostics hd, Item.place_of_mem_diagnostics he]
    exact hbefore

/-- By their offsets, for short. -/
theorem sorted_diagnostics (text : List Char) :
    (ofText text).diagnostics.Pairwise fun a b => a.offset ≤ b.offset := by
  refine (pairwise_diagnostics text).imp fun {a b} hbefore => ?_
  rw [a.offset_eq, b.offset_eq]
  exact Nat.le_of_lt hbefore.offset_lt

/-- Nothing is wrong with a character behind the end. -/
theorem offset_le_of_mem_diagnostics {diagnostic : Diagnostic}
    (h : diagnostic ∈ (ofText text).diagnostics) :
    diagnostic.offset ≤ (ofText text).last.start.offset := by
  obtain ⟨item, hitem, hdiagnostic⟩ := List.mem_flatMap.1 h
  rw [Item.offset_of_mem_diagnostics hdiagnostic, Item.offset_eq]
  exact Nat.le_of_lt (before_last hitem).offset_lt

end TokenStream

end Cqasm
