import Cqasm.Token.Lexeme

/-!
# Pieces tile a text

Every piece is what the text goes on with where the piece starts (`more_isPrefix_leading`), so the
pieces of a text, one after the other, are the text (`flatMap_text_cut`).
-/

set_option autoImplicit false

namespace Cqasm.Lexeme

/-! ## The rest of a piece is a prefix -/

theorem versionTail_isPrefix (rest : List Char) : versionTail rest <+: rest := by
  induction rest with
  | nil => exact List.prefix_rfl
  | cons c rest ih =>
    rw [versionTail]
    split
    · exact List.prefix_cons_iff.2 (.inr ⟨_, rfl, ih⟩)
    · exact List.nil_prefix

theorem fractionPart_isPrefix (rest : List Char) : fractionPart rest <+: rest := by
  unfold fractionPart
  split
  · split
    · exact (List.prefix_cons_inj _).2 (List.takeWhile_prefix _)
    · exact List.nil_prefix
  · exact List.nil_prefix

theorem signPart_isPrefix (rest : List Char) : signPart rest <+: rest := by
  unfold signPart
  split
  · split
    · exact (List.prefix_cons_inj _).2 List.nil_prefix
    · exact List.nil_prefix
  · exact List.nil_prefix

/-- What follows a prefix may go on with a prefix of what is left. -/
theorem append_isPrefix {first more rest : List Char} (h : first <+: rest)
    (h' : more <+: rest.drop first.length) : first ++ more <+: rest := by
  obtain ⟨behind, rfl⟩ := h
  rw [List.drop_left] at h'
  exact (List.prefix_append_right_inj first).2 h'

/-- An exponent takes its mark, a sign and digits, or nothing. -/
theorem exponentPart_isPrefix (rest : List Char) : exponentPart rest <+: rest := by
  unfold exponentPart
  split
  · next c rest =>
    dsimp only
    split
    · exact (List.prefix_cons_inj _).2
        (append_isPrefix (signPart_isPrefix rest) (List.takeWhile_prefix _))
    · exact List.nil_prefix
  · exact List.nil_prefix

theorem numberTail_isPrefix (rest : List Char) : (numberTail rest).1 <+: rest := by
  unfold numberTail
  dsimp only
  have hwhole : rest.takeWhile Char.isDigit <+: rest := List.takeWhile_prefix _
  refine append_isPrefix (append_isPrefix hwhole (fractionPart_isPrefix _)) ?_
  rw [List.length_append, ← List.drop_drop]
  exact exponentPart_isPrefix _

theorem stringTail_isPrefix (rest : List Char) : (stringTail rest).1 <+: rest := by
  fun_induction stringTail rest with
  | case1 => exact List.nil_prefix
  | case2 rest => exact (List.prefix_cons_inj _).2 List.nil_prefix
  | case3 c rest text complete heq ih =>
    rw [heq] at ih
    exact (List.prefix_cons_inj _).2 ((List.prefix_cons_inj _).2 ih)
  | case4 c rest _ _ text complete heq ih =>
    rw [heq] at ih
    exact (List.prefix_cons_inj _).2 ih

theorem jsonTail_isPrefix (rest : List Char) : (jsonTail rest).1 <+: rest := by
  fun_induction jsonTail rest with
  | case1 => exact List.nil_prefix
  | case2 rest =>
    exact (List.prefix_cons_inj _).2 ((List.prefix_cons_inj _).2 List.nil_prefix)
  | case3 c rest _ text complete heq ih =>
    rw [heq] at ih
    exact (List.prefix_cons_inj _).2 ih

theorem word_isPrefix (c : Char) (rest : List Char) : (word c rest).more <+: rest := by
  unfold word
  split
  · next h =>
    cases rest with
    | nil => simp [opensCondition] at h
    | cons d rest =>
      have hminus : d = '-' := by
        unfold opensCondition at h
        split at h
        · next heq => exact (List.cons.inj heq).1
        · simp at h
      rw [hminus]
      exact (List.prefix_cons_inj _).2 List.nil_prefix
  · exact List.takeWhile_prefix _

theorem number_isPrefix (afterVersion : Bool) (c : Char) (rest : List Char) :
    (number afterVersion c rest).more <+: rest := by
  unfold number
  split
  · exact versionTail_isPrefix rest
  · exact numberTail_isPrefix rest

/-- An operator is the start of what it was found in. -/
theorem symbol_isPrefix (c : Char) (rest : List Char) : (symbol c rest).more <+: rest := by
  unfold symbol
  split
  · next spelling kind hfind =>
    have hprefix := List.find?_some hfind
    rw [List.isPrefixOf_iff_prefix] at hprefix
    cases spelling with
    | nil => exact List.nil_prefix
    | cons d spelling => exact (List.cons_prefix_cons.1 hprefix).2
  · exact List.nil_prefix

/-- A piece is what the text goes on with. -/
theorem more_isPrefix_leading (afterVersion : Bool) (c : Char) (rest : List Char) :
    (leading afterVersion c rest).more <+: rest := by
  unfold leading
  split
  · exact List.nil_prefix
  split
  · exact List.takeWhile_prefix _
  split
  · exact List.nil_prefix
  split
  · exact number_isPrefix afterVersion c rest
  split
  · exact word_isPrefix c rest
  split
  · exact stringTail_isPrefix rest
  split
  · next hjson =>
    cases rest with
    | nil => simp at hjson
    | cons d rest =>
      have hbar : d = '|' := by simpa using (Bool.and_eq_true_iff.1 hjson).2
      rw [hbar]
      exact (List.prefix_cons_inj _).2 (jsonTail_isPrefix rest)
  · exact symbol_isPrefix c rest

/-- The first character of a piece is the one it was cut off at. -/
theorem first_leading (afterVersion : Bool) (c : Char) (rest : List Char) :
    (leading afterVersion c rest).first = c := by
  unfold leading
  split
  · rfl
  split
  · rfl
  split
  · rfl
  split
  · unfold number
    split <;> rfl
  split
  · unfold word
    split <;> rfl
  split
  · next hquote => exact hquote.symm
  split
  · next hjson =>
    have hbrace : c = '{' := by simpa using (Bool.and_eq_true_iff.1 hjson).1
    exact hbrace.symm
  · unfold symbol
    split <;> rfl

/-! ## Tiling -/

/-- By induction along the cutting, each piece takes what it is given. -/
theorem flatMap_text_cutFrom (afterVersion : Bool) (taken : Nat) (text : List Char) :
    (cutFrom afterVersion taken text).flatMap Lexeme.text = text.drop taken := by
  fun_induction cutFrom afterVersion taken text with
  | case1 => rw [List.drop_nil, List.flatMap_nil]
  | case2 afterVersion taken c rest ih => exact ih
  | case3 afterVersion c rest piece ih =>
    rw [List.flatMap_cons, ih, Lexeme.text, List.drop_zero, first_leading, List.cons_append]
    exact congrArg (c :: ·) (List.prefix_iff_eq_append.1 (more_isPrefix_leading ..))

/-- The pieces of a text make up the text. -/
theorem flatMap_text_cut (text : List Char) : (cut text).flatMap Lexeme.text = text :=
  flatMap_text_cutFrom false 0 text

end Cqasm.Lexeme
