import Cqasm.Proofs.Lexical.Places
import Mathlib.Data.List.Induction

/-!
# Pieces of a text by their offsets

Every character of a text belongs to exactly one piece (`PieceAt.exists_of_lt`, `PieceAt.unique`),
which is what `leading` makes of the text from its first character on (`PieceAt.exists_leading`).
What is neither blank nor part of a comment nor part of a token is a character with which nothing
starts (`Lexeme.StartsNothing`), and only the last piece of a text can be a literal that never ends
(`Lexeme.more_of_incomplete`).
-/

set_option autoImplicit false

namespace Cqasm

/-! ## The place of a character -/

/-- The place of the character at an index of a text: its line is one more than the newlines before
it, and its column the number of characters behind the last of them. -/
def Position.within (text : List Char) (index : Nat) : Position where
  offset := index
  line := 1 + (text.take index).count '\n'
  column := ((text.take index).reverse.takeWhile (· ≠ '\n')).length

/-- Walking over a text from its start leads to the place its length gives. -/
theorem Position.after_start (text : List Char) :
    start.after text = within text text.length := by
  -- Walking over a text goes on at its end, so the induction is from there.
  induction text using List.reverseRecOn with
  | nil => rfl
  | append_singleton text c ih =>
    rw [after_append, ih, after_cons, after_nil, next, within, within, List.take_length,
      List.take_length]
    by_cases hc : c = '\n'
    · simp [hc, Nat.add_assoc]
    · simp [hc]

theorem Position.after_start_of_append (before behind : List Char) :
    start.after before = within (before ++ behind) before.length := by
  rw [after_start, within, within, List.take_left, List.take_length]

/-! ## What starts where -/

namespace Lexeme

/-- That with `c`, when `rest` follows, nothing starts that has a meaning: it is neither blank nor
the start of a comment or token. -/
structure StartsNothing (c : Char) (rest : List Char) : Prop where
  not_space : isSpace c = false
  ne_hash : c ≠ '#'
  ne_newline : c ≠ '\n'
  ne_quote : c ≠ '"'
  not_digit : c.isDigit = false
  not_wordStart : isWordStart c = false
  no_operator : ∀ entry ∈ Kind.operators, ¬entry.1 <+: c :: rest

/-- What a piece is, by its role. -/
def Fits (c : Char) (rest : List Char) (piece : Lexeme) : Prop :=
  match piece.role with
  | .blank => isSpace c ∧ piece.more = []
  | .comment => c = '#' ∧ piece.more = rest.takeWhile (· ≠ '\n')
  | .stray => StartsNothing c rest ∧ piece.more = []
  | .token _ complete => c ≠ '#' ∧ (complete = false → piece.more = rest)

/-- A string that never ends takes everything. -/
theorem stringTail_of_incomplete {rest : List Char} (h : (stringTail rest).2 = false) :
    (stringTail rest).1 = rest := by
  fun_induction stringTail rest with
  | case1 => rfl
  | case2 => cases h
  | case3 c rest text complete heq ih =>
    rw [heq] at ih
    exact congrArg ('\\' :: c :: ·) (ih h)
  | case4 c rest _ _ text complete heq ih =>
    rw [heq] at ih
    exact congrArg (c :: ·) (ih h)

/-- So does a JSON literal that never ends. -/
theorem jsonTail_of_incomplete {rest : List Char} (h : (jsonTail rest).2 = false) :
    (jsonTail rest).1 = rest := by
  fun_induction jsonTail rest with
  | case1 => rfl
  | case2 => cases h
  | case3 c rest _ text complete heq ih =>
    rw [heq] at ih
    exact congrArg (c :: ·) (ih h)

theorem fits_ofKind {c : Char} (hc : c ≠ '#') (rest : List Char) (kind : Kind)
    (more : List Char) : (ofKind kind c more).Fits c rest :=
  ⟨hc, fun h => Bool.noConfusion h⟩

/-- The cases are those of `leading`, in its order. -/
theorem fits_leading (afterVersion : Bool) (c : Char) (rest : List Char) :
    (leading afterVersion c rest).Fits c rest := by
  unfold leading
  split
  · next hspace => exact ⟨hspace, rfl⟩
  next hspace =>
  split
  · next hhash => exact ⟨hhash, rfl⟩
  next hhash =>
  split
  · exact fits_ofKind hhash rest _ _
  next hnewline =>
  split
  · unfold number
    split
    · exact fits_ofKind hhash rest _ _
    · exact fits_ofKind hhash rest _ _
  next hdigit =>
  split
  · unfold word
    split
    · exact fits_ofKind hhash rest _ _
    · exact fits_ofKind hhash rest _ _
  next hword =>
  split
  · exact ⟨hhash, stringTail_of_incomplete⟩
  next hquote =>
  split
  · next hjson =>
    refine ⟨hhash, fun hincomplete => ?_⟩
    cases rest with
    | nil => simp at hjson
    | cons d rest =>
      have hbar : d = '|' := by simpa using (Bool.and_eq_true_iff.1 hjson).2
      rw [hbar]
      exact congrArg ('|' :: ·) (jsonTail_of_incomplete hincomplete)
  -- no operator fits, and every other test has failed by now
  · unfold symbol
    split
    · exact fits_ofKind hhash rest _ _
    · next hfind =>
      refine ⟨⟨by simpa using hspace, hhash, hnewline, hquote, by simpa using hdigit,
        by simpa using hword, fun entry hentry hprefix => ?_⟩, rfl⟩
      exact List.find?_eq_none.1 hfind entry hentry (List.isPrefixOf_iff_prefix.2 hprefix)

theorem leading_of_isSpace {c : Char} (hc : isSpace c) (afterVersion : Bool) (rest : List Char) :
    leading afterVersion c rest = { role := .blank, first := c, more := [] } :=
  if_pos hc

theorem leading_hash (afterVersion : Bool) (rest : List Char) :
    leading afterVersion '#' rest =
      { role := .comment, first := '#', more := rest.takeWhile (· ≠ '\n') } := rfl

/-- No digit starts a word. -/
theorem not_isDigit_of_isWordStart {c : Char} (h : isWordStart c) : c.isDigit = false := by
  unfold isWordStart Char.isAlpha Char.isUpper Char.isLower at h
  unfold Char.isDigit
  simp only [Bool.or_eq_true, Bool.and_eq_true, decide_eq_true_eq, UInt32.le_iff_toNat_le,
    ge_iff_le, Bool.and_eq_false_iff, decide_eq_false_iff_not] at h ⊢
  rcases h with h | rfl
  · simp at h ⊢
    omega
  · decide

/-- What starts a word is none of the things that are looked for before. -/
theorem leading_of_isWordStart {c : Char} (h : isWordStart c) (afterVersion : Bool)
    (rest : List Char) : leading afterVersion c rest = word c rest := by
  have hne : ∀ d : Char, isWordStart d = false → c ≠ d := by
    rintro d hd rfl
    rw [h] at hd
    cases hd
  have hspace : isSpace c = false := by
    simp [isSpace, hne ' ' (by decide), hne '\t' (by decide), hne '\r' (by decide)]
  simp [leading, hspace, hne '#' (by decide), hne '\n' (by decide), not_isDigit_of_isWordStart h, h]

/-- A digit is none of the things that are looked for before a number. -/
theorem leading_of_isDigit {c : Char} (h : c.isDigit) (afterVersion : Bool)
    (rest : List Char) : leading afterVersion c rest = number afterVersion c rest := by
  have hne : ∀ d : Char, d.isDigit = false → c ≠ d := by
    rintro d hd rfl
    rw [h] at hd
    cases hd
  have hspace : isSpace c = false := by
    simp [isSpace, hne ' ' (by decide), hne '\t' (by decide), hne '\r' (by decide)]
  simp [leading, hspace, hne '#' (by decide), hne '\n' (by decide), h]

theorem startsWith_drop_takeWhile (p : Char → Bool) (text : List Char) :
    startsWith p (text.drop (text.takeWhile p).length) = false := by
  induction text with
  | nil => rfl
  | cons c text ih =>
    by_cases hc : p c
    · rwa [List.takeWhile_cons_of_pos hc, List.length_cons, List.drop_succ_cons]
    · rw [List.takeWhile_cons_of_neg hc]
      simpa [startsWith] using hc

/-! ## Pieces side by side -/

/-- What is taken of a text, with what is left of it. -/
theorem text_leading_append (afterVersion : Bool) (c : Char) (rest : List Char) :
    (leading afterVersion c rest).text ++ rest.drop (leading afterVersion c rest).more.length =
      c :: rest := by
  rw [Lexeme.text, first_leading, List.cons_append]
  exact congrArg (c :: ·) (List.prefix_iff_eq_append.1 (more_isPrefix_leading ..))

/-- Characters that belong to a piece already are passed over. -/
theorem cutFrom_eq_drop (afterVersion : Bool) (taken : Nat) (text : List Char) :
    cutFrom afterVersion taken text = cutFrom afterVersion 0 (text.drop taken) := by
  induction taken generalizing text with
  | zero => rfl
  | succ taken ih =>
    cases text with
    | nil => rfl
    | cons c text => exact ih text

/-- Behind its first piece, a text is cut as if it started there. -/
theorem cutFrom_cons (afterVersion : Bool) (c : Char) (rest : List Char) :
    cutFrom afterVersion 0 (c :: rest) =
      leading afterVersion c rest ::
        cutFrom (isAfterVersion afterVersion (leading afterVersion c rest)) 0
          (rest.drop (leading afterVersion c rest).more.length) := by
  rw [cutFrom, cutFrom_eq_drop]

/-- A text that starts with a piece is cut into it and the pieces behind it. -/
theorem cutFrom_of_leading {afterVersion : Bool} {piece : Lexeme} {later : List Char}
    (h : leading afterVersion piece.first (piece.more ++ later) = piece) :
    cutFrom afterVersion 0 (piece.text ++ later) =
      piece :: cutFrom (isAfterVersion afterVersion piece) 0 later := by
  show cutFrom afterVersion 0 (piece.first :: (piece.more ++ later)) = _
  rw [cutFrom_cons, h, List.drop_left]

/-- From any piece on, a text is cut as if it started there. -/
theorem exists_cutFrom_of_append {afterVersion : Bool} {text : List Char}
    {left right : List Lexeme} (h : cutFrom afterVersion 0 text = left ++ right) :
    ∃ afterVersion', cutFrom afterVersion' 0 (right.flatMap Lexeme.text) = right := by
  induction left generalizing afterVersion text with
  | nil =>
    have htext := flatMap_text_cutFrom afterVersion 0 text
    rw [h] at htext
    exact ⟨afterVersion, htext ▸ h⟩
  | cons first left ih =>
    cases text with
    | nil => cases h
    | cons c rest =>
      obtain ⟨-, hrest⟩ := List.cons.inj h
      rw [cutFrom_eq_drop] at hrest
      exact ih hrest

/-- A piece is the leading one of the text from its own first character on. -/
theorem exists_leading_of_cutFrom {afterVersion : Bool} {text : List Char}
    {left right : List Lexeme} {piece : Lexeme}
    (h : cutFrom afterVersion 0 text = left ++ piece :: right) :
    ∃ afterVersion' c rest, text = left.flatMap Lexeme.text ++ c :: rest ∧
      piece = leading afterVersion' c rest := by
  have htext := flatMap_text_cutFrom afterVersion 0 text
  obtain ⟨afterVersion', hcut⟩ := exists_cutFrom_of_append h
  rw [h, List.flatMap_append] at htext
  exact ⟨afterVersion', piece.first, _, htext.symm, (List.cons.inj hcut).1.symm⟩

/-- Only the last piece can be a literal that never ends. -/
theorem pairwise_complete_cutFrom (afterVersion : Bool) (taken : Nat) (text : List Char) :
    (cutFrom afterVersion taken text).Pairwise fun piece _ =>
      ∀ kind, piece.role ≠ .token kind false := by
  fun_induction cutFrom afterVersion taken text with
  | case1 => exact .nil
  | case2 _ _ _ _ ih => exact ih
  | case3 afterVersion c rest piece ih =>
    -- a literal that never ends has taken the rest, and there is no piece behind it
    refine List.pairwise_cons.2 ⟨fun behind hbehind kind hrole => ?_, ih⟩
    have hfits := fits_leading afterVersion c rest
    rw [Fits, hrole] at hfits
    rw [cutFrom_eq_drop, hfits.2 rfl, List.drop_length] at hbehind
    cases hbehind

/-- The length of the text that some pieces make up. -/
def extent (pieces : List Lexeme) : Nat :=
  (pieces.flatMap Lexeme.text).length

theorem extent_cons (piece : Lexeme) (pieces : List Lexeme) :
    extent (piece :: pieces) = piece.text.length + extent pieces := by
  rw [extent, List.flatMap_cons, List.length_append, extent]

theorem extent_append (left right : List Lexeme) :
    extent (left ++ right) = extent left + extent right := by
  rw [extent, List.flatMap_append, List.length_append, extent, extent]

/-- An offset within the pieces lies in one of them. -/
theorem exists_around {pieces : List Lexeme} {i : Nat} (h : i < extent pieces) :
    ∃ left piece right, pieces = left ++ piece :: right ∧ extent left ≤ i ∧
      i < extent left + piece.text.length := by
  induction pieces generalizing i with
  | nil => cases h
  | cons first pieces ih =>
    rw [extent_cons] at h
    by_cases hfirst : i < first.text.length
    · exact ⟨[], first, pieces, rfl, Nat.zero_le _, by rwa [extent, List.flatMap_nil,
        List.length_nil, Nat.zero_add]⟩
    · obtain ⟨left, piece, right, rfl, hle, hlt⟩ := ih (i := i - first.text.length) (by omega)
      refine ⟨first :: left, piece, right, rfl, ?_, ?_⟩ <;> rw [extent_cons] <;> omega

/-- What ends before a character stands in front of a piece that reaches over it. -/
theorem isPrefix_of_around {left left' right right' : List Lexeme} {piece piece' : Lexeme} {i : Nat}
    (h : left ++ piece :: right = left' ++ piece' :: right') (hle : extent left' ≤ i)
    (hlt : i < extent left + piece.text.length) : left' <+: left := by
  rcases List.append_eq_append_iff.1 h with ⟨between, rfl, hbetween⟩ | ⟨between, rfl, -⟩
  -- were there a piece between them, it would end behind the character
  · cases between with
    | nil => simp
    | cons first between =>
      obtain rfl := (List.cons.inj hbetween).1
      rw [extent_append, extent_cons] at hle
      omega
  · exact List.prefix_append ..

end Lexeme

/-- That a piece of a text starts at an offset. -/
def PieceAt (text : List Char) (offset : Nat) (piece : Lexeme) : Prop :=
  ∃ left right, Lexeme.cut text = left ++ piece :: right ∧ Lexeme.extent left = offset

namespace PieceAt

variable {text : List Char} {offset i : Nat} {piece : Lexeme}

/-- Every character belongs to a piece. -/
theorem exists_of_lt (h : i < text.length) :
    ∃ offset piece, PieceAt text offset piece ∧ offset ≤ i ∧ i < offset + piece.text.length := by
  have hextent : i < Lexeme.extent (Lexeme.cut text) := by
    rwa [Lexeme.extent, Lexeme.flatMap_text_cut]
  obtain ⟨left, piece, right, hcut, hle, hlt⟩ := Lexeme.exists_around hextent
  exact ⟨_, piece, ⟨left, right, hcut, rfl⟩, hle, hlt⟩

/-- No character belongs to two pieces. -/
theorem unique {offset' : Nat} {piece' : Lexeme} (h : PieceAt text offset piece)
    (h' : PieceAt text offset' piece') (hle : offset ≤ i) (hlt : i < offset + piece.text.length)
    (hle' : offset' ≤ i) (hlt' : i < offset' + piece'.text.length) :
    offset = offset' ∧ piece = piece' := by
  obtain ⟨left, right, hcut, rfl⟩ := h
  obtain ⟨left', right', hcut', rfl⟩ := h'
  have hsplit := hcut.symm.trans hcut'
  have hprefix := Lexeme.isPrefix_of_around hsplit hle' hlt
  have hprefix' := Lexeme.isPrefix_of_around hsplit.symm hle hlt'
  obtain rfl := hprefix.eq_of_length_le hprefix'.length_le
  exact ⟨rfl, (List.cons.inj (List.append_cancel_left hsplit)).1⟩

/-- A piece is what is cut off where it starts, whatever came before it. -/
theorem exists_leading (h : PieceAt text offset piece) :
    ∃ before afterVersion c rest, text = before ++ c :: rest ∧ before.length = offset ∧
      piece = Lexeme.leading afterVersion c rest := by
  obtain ⟨left, right, hcut, rfl⟩ := h
  obtain ⟨afterVersion, c, rest, htext, hpiece⟩ := Lexeme.exists_leading_of_cutFrom hcut
  exact ⟨_, afterVersion, c, rest, htext, rfl, hpiece⟩

theorem exists_append (h : PieceAt text offset piece) :
    ∃ before behind, text = before ++ (piece.text ++ behind) ∧ before.length = offset := by
  obtain ⟨left, right, hcut, rfl⟩ := h
  refine ⟨left.flatMap Lexeme.text, right.flatMap Lexeme.text, ?_, rfl⟩
  rw [← List.flatMap_cons, ← List.flatMap_append, ← hcut, Lexeme.flatMap_text_cut]

theorem getElem?_eq_first (h : PieceAt text offset piece) : text[offset]? = some piece.first := by
  obtain ⟨before, behind, rfl, rfl⟩ := h.exists_append
  simp [Lexeme.text]

/-- What a piece is fits the character at its offset and what comes behind. -/
theorem exists_fits (h : PieceAt text offset piece) :
    piece.Fits piece.first (text.drop (offset + 1)) := by
  obtain ⟨before, afterVersion, c, rest, rfl, rfl, rfl⟩ := h.exists_leading
  rw [Lexeme.first_leading]
  simpa using Lexeme.fits_leading afterVersion c rest

end PieceAt

/-! ## Items -/

namespace Item

/-- Only tokens and stray characters are items. -/
theorem cases_of_ofLexeme? {here : Position} {piece : Lexeme} {item : Item}
    (h : ofLexeme? here piece = some item) :
    (∃ token, item = .token token ∧ token.start = here ∧ token.text = piece.text ∧
        piece.role = .token token.kind token.complete) ∨
      item = .stray piece.first here ∧ piece.role = .stray := by
  unfold ofLexeme? at h
  split at h
  · cases h
  · cases h
  · next hrole =>
    cases h
    exact .inr ⟨rfl, hrole⟩
  · next hrole =>
    cases h
    exact .inl ⟨_, rfl, rfl, rfl, hrole⟩

/-- An item is made by one of the pieces, at the place where the pieces before it end. -/
theorem exists_split_of_mem_ofLexemes {here : Position} {pieces : List Lexeme} {item : Item}
    (h : item ∈ ofLexemes here pieces) :
    ∃ left piece right, pieces = left ++ piece :: right ∧
      ofLexeme? (here.after (left.flatMap Lexeme.text)) piece = some item := by
  induction pieces generalizing here with
  | nil => cases h
  | cons first pieces ih =>
    rcases List.mem_append.1 h with h | h
    · exact ⟨[], first, pieces, rfl, Option.mem_toList.1 h⟩
    · obtain ⟨left, piece, right, rfl, hitem⟩ := ih h
      refine ⟨first :: left, piece, right, rfl, ?_⟩
      rwa [List.flatMap_cons, Position.after_append]

theorem mem_ofLexemes_of_split {here : Position} {left right : List Lexeme} {piece : Lexeme}
    {item : Item} (h : ofLexeme? (here.after (left.flatMap Lexeme.text)) piece = some item) :
    item ∈ ofLexemes here (left ++ piece :: right) := by
  induction left generalizing here with
  | nil => exact List.mem_append_left _ (Option.mem_toList.2 h)
  | cons first left ih =>
    rw [List.flatMap_cons, Position.after_append] at h
    exact List.mem_append_right _ (ih h)

end Item

namespace TokenStream

variable {text : List Char} {offset : Nat} {piece : Lexeme} {item : Item}

/-- The place of a piece is the one that the offset of the piece gives. -/
theorem after_start_of_cut {left right : List Lexeme}
    (h : Lexeme.cut text = left ++ right) :
    Position.start.after (left.flatMap Lexeme.text) =
      .within text (Lexeme.extent left) := by
  have htext : text = left.flatMap Lexeme.text ++ right.flatMap Lexeme.text := by
    rw [← List.flatMap_append, ← h, Lexeme.flatMap_text_cut]
  rw [Position.after_start_of_append _ (right.flatMap Lexeme.text), ← htext]
  rfl

/-- An item is made by the piece at its own place. -/
theorem exists_pieceAt (h : item ∈ (ofText text).items) :
    ∃ piece, PieceAt text item.offset piece ∧
      Item.ofLexeme? (.within text item.offset) piece = some item := by
  obtain ⟨left, piece, right, hcut, hitem⟩ := Item.exists_split_of_mem_ofLexemes h
  rw [after_start_of_cut hcut] at hitem
  have hplace := Item.place_of_mem_ofLexeme? (Option.mem_toList.2 hitem)
  have hoffset : item.offset = Lexeme.extent left := by
    rw [item.offset_eq, hplace]
    rfl
  rw [hoffset]
  exact ⟨piece, ⟨left, right, hcut, rfl⟩, hitem⟩

/-- And the piece at an offset makes an item there. -/
theorem mem_items_of_pieceAt (h : PieceAt text offset piece)
    (hitem : Item.ofLexeme? (.within text offset) piece = some item) :
    item ∈ (ofText text).items := by
  obtain ⟨left, right, hcut, rfl⟩ := h
  rw [← after_start_of_cut hcut] at hitem
  show item ∈ Item.ofLexemes .start (Lexeme.cut text)
  rw [hcut]
  exact Item.mem_ofLexemes_of_split hitem

end TokenStream

end Cqasm
