import Cqasm.Proofs.Lexical.Delimiter
import Cqasm.Proofs.Lexical.Slice
import Cqasm.Proofs.Printing.Word
import Mathlib.Data.List.Forall2

/-!
# Blanks in place of stray characters

A character that starts nothing does not go on anything either, except within a comment or a
literal, and neither does a space. So nothing becomes of a text when spaces are put in the place of
all its stray characters, except that they are blanks then (`Lexeme.cut_blanked`).
-/

set_option autoImplicit false

namespace Cqasm.Lexeme

/-! ## Characters that start nothing -/

/-- That a character goes on no word, number, operator or line, and is no operator by itself. -/
structure Inert (c : Char) : Prop where
  ne_newline : c ≠ '\n'
  not_wordPart : isWordPart c = false
  no_operator : ∀ entry ∈ Kind.operators, entry.1 ≠ [c]

/-- A character that starts nothing is of no use to any of the scanner's rules. -/
theorem StartsNothing.inert {c : Char} {rest : List Char} (h : StartsNothing c rest) : Inert c where
  ne_newline := h.ne_newline
  not_wordPart := Bool.or_eq_false_iff.2 ⟨h.not_wordStart, h.not_digit⟩
  no_operator entry hentry heq :=
    h.no_operator entry hentry (heq ▸ (List.prefix_cons_inj c).2 List.nil_prefix)

namespace Inert

variable {c : Char}

theorem not_isDigit (h : Inert c) : c.isDigit = false :=
  (Bool.or_eq_false_iff.1 h.not_wordPart).2

theorem not_isWordStart (h : Inert c) : isWordStart c = false :=
  (Bool.or_eq_false_iff.1 h.not_wordPart).1

/-- It is told apart from any character of a word. -/
theorem ne_of_isWordPart (h : Inert c) {d : Char} (hd : isWordPart d) : c ≠ d := by
  rintro rfl
  rw [h.not_wordPart] at hd
  cases hd

/-- And from any operator that is one character long. -/
theorem ne_of_operator (h : Inert c) {d : Char} {kind : Kind}
    (hd : ([d], kind) ∈ Kind.operators) : c ≠ d := by
  rintro rfl
  exact h.no_operator _ hd rfl

end Inert

/-- That the one character may stand in place of the other: it is the same, or a space in place of
one that starts nothing. -/
def Replaces (c' c : Char) : Prop :=
  c' = c ∨ c' = ' ' ∧ Inert c

theorem Replaces.refl (c : Char) : Replaces c c :=
  .inl rfl

/-- One text is the other with spaces in place of some characters that start nothing. -/
abbrev Blanks (rest' rest : List Char) : Prop :=
  List.Forall₂ Replaces rest' rest

theorem Blanks.refl (rest : List Char) : Blanks rest rest := by
  induction rest with
  | nil => exact .nil
  | cons c rest ih => exact .cons (.refl c) ih

/-! ## The rest of a piece -/

section

variable {rest rest' : List Char}

/-- A class with neither blanks nor such characters in it does not see the difference. -/
theorem startsWith_congr {p : Char → Bool} (hspace : p ' ' = false)
    (hinert : ∀ c, Inert c → p c = false) (h : Blanks rest' rest) :
    startsWith p rest' = startsWith p rest := by
  cases h with
  | nil => rfl
  | cons hc _ =>
    rcases hc with rfl | ⟨rfl, hc⟩
    · rfl
    · exact hspace.trans (hinert _ hc).symm

/-- So a row of characters of the class ends at the same place. -/
theorem takeWhile_congr {p : Char → Bool} (hspace : p ' ' = false)
    (hinert : ∀ c, Inert c → p c = false) (h : Blanks rest' rest) :
    rest'.takeWhile p = rest.takeWhile p := by
  induction h with
  | nil => rfl
  | @cons _ c _ _ hc _ ih =>
    rcases hc with rfl | ⟨rfl, hc⟩
    · rw [List.takeWhile_cons, List.takeWhile_cons, ih]
    · rw [List.takeWhile_cons_of_neg (by simp [hspace]),
        List.takeWhile_cons_of_neg (by simp [hinert c hc])]

theorem digits_congr (h : Blanks rest' rest) :
    rest'.takeWhile Char.isDigit = rest.takeWhile Char.isDigit :=
  takeWhile_congr (by decide) (fun _ hc => hc.not_isDigit) h

theorem startsWith_digit_congr (h : Blanks rest' rest) :
    startsWith Char.isDigit rest' = startsWith Char.isDigit rest :=
  startsWith_congr (by decide) (fun _ hc => hc.not_isDigit) h

/-- The rest of a number of a version: digits, and dots in front of them. -/
theorem versionTail_congr (h : Blanks rest' rest) : versionTail rest' = versionTail rest := by
  induction h with
  | nil => rfl
  | cons hc hrest ih =>
    rcases hc with rfl | ⟨rfl, hc⟩
    · rw [versionTail, versionTail, ih, startsWith_digit_congr hrest]
    · have hdot := hc.ne_of_operator (show (['.'], Kind.dot) ∈ Kind.operators by decide)
      simp [versionTail, hc.not_isDigit, hdot]

theorem fractionPart_congr (h : Blanks rest' rest) : fractionPart rest' = fractionPart rest := by
  cases h with
  | nil => rfl
  | @cons d _ _ _ hc hrest =>
    rcases hc with rfl | ⟨rfl, hc⟩
    · by_cases hdot : d = '.'
      · subst hdot
        rw [fractionPart, fractionPart, startsWith_digit_congr hrest, digits_congr hrest]
      · simp [fractionPart, hdot]
    · have hdot := hc.ne_of_operator (show (['.'], Kind.dot) ∈ Kind.operators by decide)
      simp [fractionPart, hdot]

/-- A sign is no blank and starts something, so it is not among what is replaced. -/
theorem signPart_congr (h : Blanks rest' rest) : signPart rest' = signPart rest := by
  cases h with
  | nil => rfl
  | cons hc _ =>
    rcases hc with rfl | ⟨rfl, hc⟩
    · rfl
    · have hplus := hc.ne_of_operator (show (['+'], Kind.plus) ∈ Kind.operators by decide)
      have hminus := hc.ne_of_operator (show (['-'], Kind.minus) ∈ Kind.operators by decide)
      simp [signPart, hplus, hminus]

/-- Mark, sign and digits are looked for one after the other, and none of them is replaced. -/
theorem exponentPart_congr (h : Blanks rest' rest) : exponentPart rest' = exponentPart rest := by
  cases h with
  | nil => rfl
  | cons hc hrest =>
    rcases hc with rfl | ⟨rfl, hc⟩
    · rw [exponentPart, exponentPart, signPart_congr hrest,
        digits_congr (List.forall₂_drop _ hrest)]
    · have he := hc.ne_of_isWordPart (show isWordPart 'e' by decide)
      have hE := hc.ne_of_isWordPart (show isWordPart 'E' by decide)
      simp [exponentPart, he, hE]

theorem numberTail_congr (h : Blanks rest' rest) : numberTail rest' = numberTail rest := by
  unfold numberTail
  dsimp only
  rw [digits_congr h, fractionPart_congr (List.forall₂_drop _ h),
    exponentPart_congr (List.forall₂_drop _ (List.forall₂_drop _ h))]

/-- The mark of a condition is a minus sign in front of a letter. -/
theorem opensCondition_congr (h : Blanks rest' rest) :
    opensCondition rest' = opensCondition rest := by
  cases h with
  | nil => rfl
  | @cons d _ _ _ hc hrest =>
    rcases hc with rfl | ⟨rfl, hc⟩
    · by_cases hminus : d = '-'
      · subst hminus
        exact startsWith_congr (by decide) (fun _ hc => hc.not_isWordStart) hrest
      · simp [opensCondition, hminus]
    · have hminus := hc.ne_of_operator (show (['-'], Kind.minus) ∈ Kind.operators by decide)
      simp [opensCondition, hminus]

/-! ## Pieces -/

theorem word_congr (c : Char) (h : Blanks rest' rest) : word c rest' = word c rest := by
  unfold word
  rw [opensCondition_congr h, takeWhile_congr (by decide) (fun _ hc => hc.not_wordPart) h]

theorem number_congr (afterVersion : Bool) (c : Char) (h : Blanks rest' rest) :
    number afterVersion c rest' = number afterVersion c rest := by
  unfold number
  rw [versionTail_congr h, numberTail_congr h]

/-- The second character of an operator is an operator by itself, unless it is an ampersand. -/
theorem symbol_congr {c : Char} (hc : c ≠ '&') (h : Blanks rest' rest) :
    symbol c rest' = symbol c rest := by
  -- An operator is one character, or starts with an ampersand, or its rest is an operator of one
  -- character: and neither a stray character nor the blank in its place is one.
  have htails : ∀ entry ∈ Kind.operators, entry.1.tail = [] ∨ entry.1.head? = some '&' ∨
      ∃ other ∈ Kind.operators, entry.1.tail = other.1 ∧ other.1.length = 1 ∧
        other.1 ≠ [' '] := by decide
  have hahead : ∀ entry ∈ Kind.operators,
      entry.1.isPrefixOf (c :: rest') = entry.1.isPrefixOf (c :: rest) := by
    rintro ⟨spelling, kind⟩ hentry
    cases spelling with
    | nil => rfl
    | cons a tail =>
      rw [List.isPrefixOf, List.isPrefixOf]
      rcases htails _ hentry with rfl | ha | ⟨⟨other, kind'⟩, hother, rfl, hlength, hspace⟩
      · rfl
      · obtain rfl : a = '&' := Option.some.inj ha
        rw [beq_false_of_ne hc.symm, Bool.false_and, Bool.false_and]
      · obtain ⟨b, rfl⟩ := List.length_eq_one_iff.1 hlength
        cases h with
        | nil => rfl
        | cons hd _ =>
          rcases hd with rfl | ⟨rfl, hd⟩
          · rfl
          · have hblank : (b == ' ') = false := beq_false_of_ne (by simpa using hspace)
            have hinert := beq_false_of_ne (hd.ne_of_operator hother).symm
            simp [List.isPrefixOf, hblank, hinert]
  unfold symbol
  rw [List.find?_congr hahead]

/-- A bar is an operator, so it is neither replaced nor put in. -/
theorem head?_eq_bar_congr (h : Blanks rest' rest) :
    rest'.head? = some '|' ↔ rest.head? = some '|' := by
  cases h with
  | nil => rfl
  | cons hc _ =>
    rcases hc with rfl | ⟨rfl, hc⟩
    · rfl
    · have hbar := hc.ne_of_operator (show (['|'], Kind.pipe) ∈ Kind.operators by decide)
      simp [hbar]

end

section

variable {more later later' : List Char}

/-- Whatever stands in front of the difference does not matter to it. -/
theorem Blanks.append_left (more : List Char) (h : Blanks later' later) :
    Blanks (more ++ later') (more ++ later) :=
  List.rel_append (Blanks.refl more) h

/-- No newline is replaced, nor is one put in, so a comment ends where it did. -/
theorem takeWhile_line_congr (h : Blanks later' later)
    (hmore : (more ++ later).takeWhile (· ≠ '\n') = more) :
    (more ++ later').takeWhile (· ≠ '\n') = more := by
  have hall : ∀ d ∈ more, decide (d ≠ '\n') := by
    intro d hd
    rw [← hmore] at hd
    exact List.all_eq_true.1 List.all_takeWhile d hd
  rw [List.takeWhile_append_of_pos hall] at hmore ⊢
  have hnone : later.takeWhile (· ≠ '\n') = [] := List.append_right_eq_self.1 hmore
  cases h with
  | nil => exact hmore
  | @cons d' d _ _ hd _ =>
    obtain rfl : d = '\n' := by
      by_contra hne
      rw [List.takeWhile_cons_of_pos (by simpa using hne)] at hnone
      cases hnone
    rcases hd with rfl | ⟨-, hd⟩
    · simp
    · exact absurd rfl hd.ne_newline

/-- A literal that is over within a text is over there, and one that is not goes on to the end. -/
theorem string_congr (h : Blanks later' later)
    (hmore : (string (more ++ later)).more = more) :
    string (more ++ later') = string (more ++ later) := by
  have hmore : (stringTail (more ++ later)).1 = more := hmore
  have htail : stringTail (more ++ later') = stringTail (more ++ later) := by
    cases hcomplete : (stringTail (more ++ later)).2 with
    | true =>
      have hclosed := stringTail_left hcomplete (congrArg List.length hmore).le
      rw [stringTail_append hclosed, stringTail_append hclosed]
    | false =>
      obtain rfl : later = [] :=
        List.append_right_eq_self.1 ((stringTail_of_incomplete hcomplete).symm.trans hmore)
      rw [List.forall₂_nil_right_iff.1 h]
  unfold string
  rw [htail]

/-- A literal whose end is in front of the difference is not touched by it. -/
theorem json_congr (h : Blanks later' later) (hmore : (json (more ++ later)).more = '|' :: more) :
    json (more ++ later') = json (more ++ later) := by
  have hmore : (jsonTail (more ++ later)).1 = more := (List.cons.inj hmore).2
  have htail : jsonTail (more ++ later') = jsonTail (more ++ later) := by
    cases hcomplete : (jsonTail (more ++ later)).2 with
    | true =>
      have hclosed := jsonTail_left hcomplete (congrArg List.length hmore).le
      rw [jsonTail_append hclosed, jsonTail_append hclosed]
    | false =>
      obtain rfl : later = [] :=
        List.append_right_eq_self.1 ((jsonTail_of_incomplete hcomplete).symm.trans hmore)
      rw [List.forall₂_nil_right_iff.1 h]
  unfold json
  rw [htail]

/-- An ampersand starts no operator except the one of two. -/
theorem symbol_ampersand (rest : List Char) :
    symbol '&' rest =
      if rest.head? = some '&' then ofKind .andAnd '&' ['&']
      else { role := .stray, first := '&', more := [] } := by
  cases rest with
  | nil => rfl
  | cons d rest =>
    by_cases hd : d = '&'
    · subst hd
      rfl
    · simp [symbol, Kind.operators, List.isPrefixOf, hd, Ne.symm hd]

/-- An ampersand is the one character that starts something only together with the next one. If the
two are one piece, the difference comes behind both. -/
theorem ampersand_congr (later' : List Char) (hmore : (symbol '&' (more ++ later)).more = more)
    (hrole : (symbol '&' (more ++ later)).role ≠ .stray) :
    symbol '&' (more ++ later') = symbol '&' (more ++ later) := by
  rw [symbol_ampersand] at hmore hrole ⊢
  split at hmore
  · obtain rfl : more = ['&'] := hmore.symm
    rfl
  · next hhead =>
    rw [if_neg hhead] at hrole
    exact absurd rfl hrole

/-- A piece stays what it is when spaces are put in the place of stray characters behind it. -/
theorem leading_congr {afterVersion : Bool} {c : Char} (h : Blanks later' later)
    (hmore : (leading afterVersion c (more ++ later)).more = more)
    (hrole : (leading afterVersion c (more ++ later)).role ≠ .stray) :
    leading afterVersion c (more ++ later') = leading afterVersion c (more ++ later) := by
  have happend := h.append_left more
  unfold leading at hmore hrole ⊢
  split
  · rfl
  next hspace =>
  rw [if_neg hspace] at hmore hrole
  split
  · next hhash =>
    rw [if_pos hhash] at hmore
    have hmore : (more ++ later).takeWhile (· ≠ '\n') = more := hmore
    rw [takeWhile_line_congr h hmore, hmore]
  next hhash =>
  rw [if_neg hhash] at hmore hrole
  split
  · rfl
  next hnewline =>
  rw [if_neg hnewline] at hmore hrole
  split
  · exact number_congr afterVersion c happend
  next hdigit =>
  rw [if_neg hdigit] at hmore hrole
  split
  · exact word_congr c happend
  next hword =>
  rw [if_neg hword] at hmore hrole
  split
  · next hquote =>
    rw [if_pos hquote] at hmore
    exact string_congr h hmore
  next hquote =>
  rw [if_neg hquote] at hmore hrole
  simp only [head?_eq_bar_congr happend]
  split
  · next hjson =>
    rw [if_pos hjson] at hmore
    obtain ⟨closing, rfl⟩ : ∃ closing, more = '|' :: closing := ⟨_, hmore.symm⟩
    exact json_congr h hmore
  next hjson =>
  rw [if_neg hjson] at hmore hrole
  -- The cases are those of `leading`, in its order.
  by_cases hand : c = '&'
  · subst hand
    exact ampersand_congr later' hmore hrole
  · exact symbol_congr hand happend

end

/-! ## Texts -/

/-- The piece with a space in place of a stray character. -/
def blanked (piece : Lexeme) : Lexeme :=
  match piece.role with
  | .stray => { role := .blank, first := ' ', more := [] }
  | _ => piece

/-- A stray character is replaced by a blank of its own. -/
theorem blanked_of_stray {piece : Lexeme} (h : piece.role = .stray) :
    piece.blanked = { role := .blank, first := ' ', more := [] } := by
  unfold blanked
  rw [h]

theorem blanked_of_ne_stray {piece : Lexeme} (h : piece.role ≠ .stray) : piece.blanked = piece := by
  unfold blanked
  split
  · next hstray => exact absurd hstray h
  · rfl

/-- That what is stray among some pieces are single characters that start nothing. -/
def InertStrays (pieces : List Lexeme) : Prop :=
  ∀ piece ∈ pieces, piece.role = .stray → Inert piece.first ∧ piece.more = []

/-- What is taken for a stray character is one character, and starts nothing. -/
theorem inert_leading {afterVersion : Bool} {c : Char} {rest : List Char}
    (h : (leading afterVersion c rest).role = .stray) :
    Inert (leading afterVersion c rest).first ∧ (leading afterVersion c rest).more = [] := by
  have hfits := fits_leading afterVersion c rest
  rw [Fits, h] at hfits
  rw [first_leading]
  exact ⟨hfits.1.inert, hfits.2⟩

/-- Among the pieces of a text, strays are such characters. -/
theorem inertStrays_cutFrom (afterVersion : Bool) (taken : Nat) (text : List Char) :
    InertStrays (cutFrom afterVersion taken text) := by
  fun_induction cutFrom afterVersion taken text with
  | case1 => exact List.forall_mem_nil _
  | case2 _ _ _ _ ih => exact ih
  | case3 afterVersion c rest first ih => exact List.forall_mem_cons.2 ⟨inert_leading, ih⟩

theorem inertStrays_cut (text : List Char) : InertStrays (cut text) :=
  inertStrays_cutFrom false 0 text

theorem blanks_text_blanked {piece : Lexeme}
    (h : piece.role = .stray → Inert piece.first ∧ piece.more = []) :
    Blanks piece.blanked.text piece.text := by
  by_cases hrole : piece.role = .stray
  · obtain ⟨hinert, hmore⟩ := h hrole
    rw [blanked_of_stray hrole, text, text, hmore]
    exact .cons (.inr ⟨rfl, hinert⟩) .nil
  · rw [blanked_of_ne_stray hrole]
    exact .refl _

/-- Piece by piece, the text with the strays blanked differs from the text in nothing else. -/
theorem InertStrays.blanks {pieces : List Lexeme} (h : InertStrays pieces) :
    Blanks (pieces.flatMap (·.blanked.text)) (pieces.flatMap text) := by
  induction pieces with
  | nil => exact .nil
  | cons piece pieces ih =>
    obtain ⟨hpiece, hpieces⟩ := List.forall_mem_cons.1 h
    rw [List.flatMap_cons, List.flatMap_cons]
    exact List.rel_append (blanks_text_blanked hpiece) (ih hpieces)

/-- With spaces in place of its stray characters, a text is cut into the same pieces otherwise. -/
theorem cutFrom_blanked (afterVersion : Bool) (taken : Nat) (source : List Char) :
    cutFrom afterVersion 0 ((cutFrom afterVersion taken source).flatMap (·.blanked.text)) =
      (cutFrom afterVersion taken source).map blanked := by
  fun_induction cutFrom afterVersion taken source with
  | case1 => rfl
  | case2 _ _ _ _ ih => exact ih
  | case3 afterVersion c rest piece ih =>
    have hblanks := (inertStrays_cutFrom (isAfterVersion afterVersion piece) piece.more.length
      rest).blanks
    rw [flatMap_text_cutFrom] at hblanks
    rw [List.flatMap_cons, List.map_cons, ← ih]
    generalize (cutFrom _ piece.more.length rest).flatMap (·.blanked.text) = later' at hblanks ⊢
    have hsplit : piece.more ++ rest.drop piece.more.length = rest :=
      List.prefix_iff_eq_append.1 (more_isPrefix_leading ..)
    -- a stray character has become a blank, which is a piece of its own too
    by_cases hstray : piece.role = .stray
    · have hmode : isAfterVersion afterVersion piece = afterVersion := by
        unfold isAfterVersion
        rw [hstray]
      rw [blanked_of_stray hstray, hmode]
      exact cutFrom_of_leading (leading_of_isSpace (by decide) ..)
    · rw [blanked_of_ne_stray hstray]
      refine cutFrom_of_leading ?_
      have hfirst : piece.first = c := first_leading ..
      have hpiece : leading afterVersion c (piece.more ++ rest.drop piece.more.length) = piece :=
        congrArg (leading afterVersion c) hsplit
      rw [hfirst]
      exact (leading_congr hblanks (congrArg more hpiece) (by rwa [hpiece])).trans hpiece

/-- Blanking the strays of a text leaves all of its other pieces as they are. -/
theorem cut_blanked (source : List Char) :
    cut ((cut source).flatMap (·.blanked.text)) = (cut source).map blanked :=
  cutFrom_blanked false 0 source

end Cqasm.Lexeme
