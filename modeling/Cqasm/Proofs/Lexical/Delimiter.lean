import Mathlib.Data.List.Find
import Cqasm.Proofs.Lexical.Tiling

/-!
# Delimiters

Some characters end every piece in front of them: no word, number or operator goes on with one
(`isDelimiter`). So what a text is cut into does not change when a delimiter and anything at all are
put behind it (`leading_append`, `cutFrom_append`). There are two exceptions, a comment, which only
the end of its line ends, and a literal that the end of the text cut off.
-/

set_option autoImplicit false

namespace Cqasm.Lexeme

/-- No word, number or operator goes on with this character. -/
def isDelimiter (c : Char) : Bool :=
  !isWordPart c && c ∉ ['.', '+', '-', '*', '=', '&', '|']

/-- Nothing that comes behind this piece and `d` could have been part of the piece. -/
def Closed (d : Char) (piece : Lexeme) : Prop :=
  match piece.role with
  | .comment => d = '\n'
  | .token _ complete => complete
  | _ => True

instance (d : Char) (piece : Lexeme) : Decidable (piece.Closed d) :=
  match piece with
  | { role := .comment, .. } => inferInstanceAs (Decidable (d = '\n'))
  | { role := .token _ complete, .. } => inferInstanceAs (Decidable (complete = true))
  | { role := .blank, .. } | { role := .stray, .. } => isTrue trivial

variable {d : Char} {behind : List Char}

/-! ## Delimiters and classes of characters -/

/-- A delimiter ends a word. -/
theorem not_isWordPart (hd : isDelimiter d) : isWordPart d = false := by
  unfold isDelimiter at hd
  simpa using (Bool.and_eq_true_iff.1 hd).1

theorem not_isWordStart (hd : isDelimiter d) : isWordStart d = false :=
  (Bool.or_eq_false_iff.1 (not_isWordPart hd)).1

theorem not_isDigit (hd : isDelimiter d) : d.isDigit = false :=
  (Bool.or_eq_false_iff.1 (not_isWordPart hd)).2

/-- And it is none of the characters that a longer operator or number goes on with. -/
theorem ne_of_isDelimiter (hd : isDelimiter d) :
    ∀ c ∈ ['.', '+', '-', '*', '=', '&', '|'], d ≠ c := by
  intro c hc heq
  unfold isDelimiter at hd
  have hnotMem := of_decide_eq_true (Bool.and_eq_true_iff.1 hd).2
  rw [heq] at hnotMem
  exact hnotMem hc

/-- A letter or underscore is no delimiter, whichever it is. -/
theorem ne_of_isWordPart (hd : isDelimiter d) {c : Char} (hc : isWordPart c) : d ≠ c := by
  intro heq
  rw [← heq, not_isWordPart hd] at hc
  cases hc

theorem startsWith_append {isMember : Char → Bool} (hd : isMember d = false) (rest : List Char) :
    startsWith isMember (rest ++ d :: behind) = startsWith isMember rest := by
  cases rest with
  | nil => exact hd
  | cons => rfl

theorem takeWhile_append {p : Char → Bool} (hd : p d = false) (rest : List Char) :
    (rest ++ d :: behind).takeWhile p = rest.takeWhile p := by
  rw [List.takeWhile_append, List.takeWhile_cons_of_neg (by simp [hd]), List.append_nil]
  split
  · next h => exact ((List.takeWhile_prefix p).eq_of_length h).symm
  · rfl

/-! ## The rest of a piece -/

theorem versionTail_append (hd : isDelimiter d) (rest : List Char) :
    versionTail (rest ++ d :: behind) = versionTail rest := by
  induction rest with
  | nil =>
    have hdot : d ≠ '.' := ne_of_isDelimiter hd _ (by simp)
    simp [versionTail, not_isDigit hd, hdot]
  | cons c rest ih =>
    rw [List.cons_append, versionTail, versionTail, ih, startsWith_append (not_isDigit hd)]

theorem fractionPart_append (hd : isDelimiter d) (rest : List Char) :
    fractionPart (rest ++ d :: behind) = fractionPart rest := by
  have hdot : d ≠ '.' := ne_of_isDelimiter hd _ (by simp)
  cases rest with
  | nil => simp [fractionPart, hdot]
  | cons c rest =>
    by_cases hc : c = '.'
    · subst hc
      rw [List.cons_append, fractionPart, fractionPart, startsWith_append (not_isDigit hd),
        takeWhile_append (not_isDigit hd)]
    · simp [fractionPart, hc]

theorem signPart_append (hd : isDelimiter d) (rest : List Char) :
    signPart (rest ++ d :: behind) = signPart rest := by
  cases rest with
  | nil =>
    have hplus : d ≠ '+' := ne_of_isDelimiter hd _ (by simp)
    have hminus : d ≠ '-' := ne_of_isDelimiter hd _ (by simp)
    simp [signPart, hplus, hminus]
  | cons => rfl

theorem drop_append_of_isPrefix {first rest : List Char} (h : first <+: rest) (more : List Char) :
    (rest ++ more).drop first.length = rest.drop first.length ++ more :=
  List.drop_append_of_le_length h.length_le

/-- An exponent that is not there does not appear because of a delimiter. -/
theorem exponentPart_append (hd : isDelimiter d) (rest : List Char) :
    exponentPart (rest ++ d :: behind) = exponentPart rest := by
  cases rest with
  | nil =>
    have he : d ≠ 'e' := ne_of_isWordPart hd (by decide)
    have hE : d ≠ 'E' := ne_of_isWordPart hd (by decide)
    simp [exponentPart, he, hE]
  | cons c rest =>
    rw [List.cons_append, exponentPart, exponentPart]
    rw [signPart_append hd, drop_append_of_isPrefix (signPart_isPrefix rest),
      takeWhile_append (not_isDigit hd)]

theorem numberTail_append (hd : isDelimiter d) (rest : List Char) :
    numberTail (rest ++ d :: behind) = numberTail rest := by
  unfold numberTail
  dsimp only
  rw [takeWhile_append (not_isDigit hd), drop_append_of_isPrefix (List.takeWhile_prefix _),
    fractionPart_append hd, drop_append_of_isPrefix (fractionPart_isPrefix _),
    exponentPart_append hd]

/-- A string that its quote has closed is over, whatever follows. -/
theorem stringTail_append {rest : List Char} (h : (stringTail rest).2) (more : List Char) :
    stringTail (rest ++ more) = stringTail rest := by
  fun_induction stringTail rest with
  | case1 => cases h
  | case2 rest => simp [stringTail]
  | case3 c rest text complete heq ih =>
    rw [heq] at ih
    rw [List.cons_append, List.cons_append, stringTail, ih h]
  | case4 c rest hquote hbackslash text complete heq ih =>
    rw [heq] at ih
    have hmore : ∀ (e : Char) (later : List Char),
        c = '\\' → rest ++ more = e :: later → False := by
      intro e later hc hsplit
      cases rest with
      | nil =>
        -- The backslash is the last character, so that the string is not closed.
        rw [stringTail] at heq
        cases heq
        cases h
      | cons e' rest => exact hbackslash e' rest hc rfl
    rw [List.cons_append, stringTail, ih h]
    · exact hquote
    · exact hmore

theorem jsonTail_append {rest : List Char} (h : (jsonTail rest).2) (more : List Char) :
    jsonTail (rest ++ more) = jsonTail rest := by
  fun_induction jsonTail rest with
  | case1 => cases h
  | case2 rest => simp [jsonTail]
  | case3 c rest hclosing text complete heq ih =>
    rw [heq] at ih
    have hmore : ∀ later : List Char, c = '|' → rest ++ more = '}' :: later → False := by
      intro later hc hsplit
      cases rest with
      | nil =>
        rw [jsonTail] at heq
        cases heq
        cases h
      | cons e rest =>
        obtain ⟨rfl, -⟩ := List.cons.inj hsplit
        exact hclosing rest hc rfl
    rw [List.cons_append, jsonTail, ih h]
    exact hmore

/-! ## Pieces -/

theorem opensCondition_append (hd : isDelimiter d) (rest : List Char) :
    opensCondition (rest ++ d :: behind) = opensCondition rest := by
  have hminus : d ≠ '-' := ne_of_isDelimiter hd _ (by simp)
  cases rest with
  | nil => simp [opensCondition, hminus]
  | cons c rest =>
    by_cases hc : c = '-'
    · subst hc
      exact startsWith_append (not_isWordStart hd) rest
    · simp [opensCondition, hc]

theorem word_append (hd : isDelimiter d) (c : Char) (rest : List Char) :
    word c (rest ++ d :: behind) = word c rest := by
  unfold word
  rw [opensCondition_append hd, takeWhile_append (not_isWordPart hd)]

theorem number_append (hd : isDelimiter d) (afterVersion : Bool) (c : Char) (rest : List Char) :
    number afterVersion c (rest ++ d :: behind) = number afterVersion c rest := by
  unfold number
  rw [versionTail_append hd, numberTail_append hd]

/-- An operator of two characters is either there in full or not begun. -/
theorem isPrefixOf_append (hd : isDelimiter d) {spelling : List Char} {kind : Kind}
    (h : (spelling, kind) ∈ Kind.operators) (c : Char) (rest : List Char) :
    spelling.isPrefixOf (c :: (rest ++ d :: behind)) = spelling.isPrefixOf (c :: rest) := by
  have hshort : ∀ entry ∈ Kind.operators,
      entry.1.tail ∈ [] :: ['.', '+', '-', '*', '=', '&', '|'].map ([·]) := by
    decide
  cases spelling with
  | nil => rfl
  | cons a tail =>
    rw [List.isPrefixOf, List.isPrefixOf]
    rcases List.mem_cons.1 (hshort _ h) with rfl | hmem
    · simp
    · obtain ⟨b, hb, rfl⟩ := List.mem_map.1 hmem
      cases rest with
      | nil =>
        have hne : b ≠ d := (ne_of_isDelimiter hd b hb).symm
        simp [List.isPrefixOf, hne]
      | cons => simp [List.isPrefixOf]

/-- No operator goes on with a delimiter. -/
theorem symbol_append (hd : isDelimiter d) (c : Char) (rest : List Char) :
    symbol c (rest ++ d :: behind) = symbol c rest := by
  unfold symbol
  rw [List.find?_congr fun entry hentry => isPrefixOf_append hd hentry c rest]

/-- A piece stays what it is when a delimiter is put behind it. -/
theorem leading_append (hd : isDelimiter d) {afterVersion : Bool} {c : Char} {rest : List Char}
    (h : (leading afterVersion c rest).Closed d) :
    leading afterVersion c (rest ++ d :: behind) = leading afterVersion c rest := by
  have hbar : d ≠ '|' := ne_of_isDelimiter hd _ (by simp)
  have hhead : (rest ++ d :: behind).head? = some '|' ↔ rest.head? = some '|' := by
    cases rest <;> simp [hbar]
  unfold leading at h ⊢
  simp only [number_append hd, word_append hd, symbol_append hd, hhead]
  by_cases hspace : isSpace c
  · rw [if_pos hspace, if_pos hspace]
  -- The cases are those of `leading`, in its order.
  rw [if_neg hspace] at h ⊢
  rw [if_neg hspace]
  by_cases hcomment : c = '#'
  · rw [if_pos hcomment] at h ⊢
    have hnewline : d = '\n' := h
    rw [if_pos hcomment, takeWhile_append (by simp [hnewline])]
  rw [if_neg hcomment] at h ⊢
  rw [if_neg hcomment]
  by_cases hnewline : c = '\n'
  · rw [if_pos hnewline, if_pos hnewline]
  rw [if_neg hnewline] at h ⊢
  rw [if_neg hnewline]
  by_cases hdigit : c.isDigit
  · rw [if_pos hdigit, if_pos hdigit]
  rw [if_neg hdigit] at h ⊢
  rw [if_neg hdigit]
  by_cases hword : isWordStart c
  · rw [if_pos hword, if_pos hword]
  rw [if_neg hword] at h ⊢
  rw [if_neg hword]
  by_cases hquote : c = '"'
  · rw [if_pos hquote] at h ⊢
    have hcomplete : (stringTail rest).2 := h
    rw [if_pos hquote, string, string, stringTail_append hcomplete]
  rw [if_neg hquote] at h ⊢
  rw [if_neg hquote]
  by_cases hjson : c = '{' && rest.head? = some '|'
  · rw [if_pos hjson] at h ⊢
    have hcomplete : (jsonTail rest.tail).2 := h
    have htail : (rest ++ d :: behind).tail = rest.tail ++ d :: behind := by
      cases rest with
      | nil => simp at hjson
      | cons => rfl
    rw [if_pos hjson, htail, json, json, jsonTail_append hcomplete]
  · rw [if_neg hjson, if_neg hjson]

/-! ## Whole texts -/

/-- A text is cut as if it were all there is, up to the delimiter behind it. From there on the rest
is cut as what the pieces so far make of it. -/
theorem cutFrom_append (hd : isDelimiter d) {afterVersion : Bool} {taken : Nat} {text : List Char}
    (htaken : taken ≤ text.length)
    (h : ∀ piece ∈ cutFrom afterVersion taken text, piece.Closed d) :
    cutFrom afterVersion taken (text ++ d :: behind) =
      cutFrom afterVersion taken text ++
        cutFrom ((cutFrom afterVersion taken text).foldl isAfterVersion afterVersion) 0
          (d :: behind) := by
  fun_induction cutFrom afterVersion taken text with
  | case1 afterVersion taken =>
    obtain rfl : taken = 0 := Nat.le_zero.1 htaken
    rfl
  | case2 afterVersion taken c rest ih =>
    exact ih (Nat.le_of_succ_le_succ htaken) h
  | case3 afterVersion c rest piece ih =>
    obtain ⟨hpiece, hpieces⟩ := List.forall_mem_cons.1 h
    have hle : piece.more.length ≤ rest.length := (more_isPrefix_leading ..).length_le
    rw [List.cons_append, cutFrom, leading_append hd hpiece]
    exact congrArg (piece :: ·) (ih hle hpieces)

end Cqasm.Lexeme
