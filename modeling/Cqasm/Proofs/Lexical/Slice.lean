import Cqasm.Proofs.Lexical.Pieces
import Cqasm.Proofs.Lexical.Seam

/-!
# Pieces of a part of a text

A piece is found by looking ahead, but what it is seldom depends on more than its own characters: it
stays the same when the text behind it is left out (`Lexeme.leading_left`), and so pieces side by
side are the pieces of the text that they make up (`Lexeme.cut_flatMap_text`). The exceptions are
the mark of a condition, which only the name behind it makes a mark, and what has to do with the
keyword `version`.
-/

set_option autoImplicit false

namespace Cqasm

/-- That a token of this kind is one wherever its characters stand. -/
def Kind.isPortable : Kind → Bool
  | version | versionNumber | conditionPrefix => false
  | _ => true

namespace Lexeme

/-- That a piece is what it is when nothing is behind it. -/
def Standalone (piece : Lexeme) : Prop :=
  ∀ kind complete, piece.role = .token kind complete → complete ∧ kind ≠ .conditionPrefix

/-- That a piece is what it is wherever its characters stand. -/
def Portable (piece : Lexeme) : Prop :=
  ∀ kind complete, piece.role = .token kind complete → complete ∧ kind.isPortable

theorem Portable.standalone {piece : Lexeme} (h : piece.Portable) : piece.Standalone := by
  intro kind complete hrole
  obtain ⟨hcomplete, hkind⟩ := h kind complete hrole
  refine ⟨hcomplete, ?_⟩
  rintro rfl
  cases hkind

/-! ## The rest of a piece -/

/-- What `f` takes of a text depends on nothing behind it. -/
def LooksNoFurther (f : List Char → List Char) : Prop :=
  ∀ ⦃rest more⦄, (f (rest ++ more)).length ≤ rest.length → f rest = f (rest ++ more)

variable {rest more : List Char}

theorem takeWhile_left (p : Char → Bool) : LooksNoFurther (List.takeWhile p) := by
  intro rest more hle
  rw [List.takeWhile_append] at hle ⊢
  split
  · next hall =>
    rw [if_pos hall, List.length_append] at hle
    have hnil : more.takeWhile p = [] := List.length_eq_zero_iff.1 (by omega)
    rw [hnil, List.append_nil]
    exact (List.takeWhile_prefix p).eq_of_length hall
  · rfl

theorem startsWith_of_versionTail_eq_nil (h : versionTail more = []) :
    startsWith Char.isDigit more = false := by
  cases more with
  | nil => rfl
  | cons c more =>
    rw [versionTail, ite_eq_right_iff] at h
    rw [startsWith, ← Bool.not_eq_true]
    exact fun hc => List.cons_ne_nil _ _ (h (by simp [hc]))

/-- By induction on the part that is left, as each character is taken or not for itself. -/
theorem versionTail_left : LooksNoFurther versionTail := by
  intro rest more hle
  induction rest with
  | nil => exact (List.length_eq_zero_iff.1 (Nat.le_zero.1 hle)).symm
  | cons c rest ih =>
    rw [List.cons_append, versionTail] at hle ⊢
    rw [versionTail]
    -- A dot counts only with a digit behind it, which is taken along.
    have hdigit (hc : c.isDigit || (c = '.' && startsWith Char.isDigit (rest ++ more))) :
        versionTail rest = versionTail (rest ++ more) := by
      rw [if_pos hc] at hle
      exact ih (Nat.le_of_succ_le_succ hle)
    cases rest with
    | nil =>
      by_cases hc : c.isDigit || (c = '.' && startsWith Char.isDigit ([] ++ more))
      · have hmore := startsWith_of_versionTail_eq_nil (hdigit hc).symm
        rw [hmore, hdigit hc]
        rfl
      · rw [if_neg hc, if_neg]
        simp_all [startsWith]
    | cons d rest =>
      rw [List.cons_append, startsWith, startsWith]
      split
      · next hc =>
        rw [hdigit hc, List.cons_append]
      · rfl

/-- If a mark is taken along with what `g` takes behind it, and left alone if that is nothing, this
looks no further than `g` does. -/
theorem marked_left {f g : List Char → List Char} {c : Char} (hg : LooksNoFurther g)
    (hf : ∀ rest, f (c :: rest) = if (g rest).isEmpty then [] else c :: g rest)
    (hle : (f (c :: (rest ++ more))).length ≤ (c :: rest).length) :
    f (c :: rest) = f (c :: (rest ++ more)) := by
  rw [hf] at hle
  have hlength : (g (rest ++ more)).length ≤ rest.length := by
    cases hempty : (g (rest ++ more)).isEmpty with
    | true => simp [List.isEmpty_iff.1 hempty]
    | false =>
      rw [hempty] at hle
      exact Nat.le_of_succ_le_succ hle
  rw [hf, hf, hg hlength]

/-- To start with a character is to have some of them in front. -/
theorem startsWith_eq (p : Char → Bool) (rest : List Char) :
    startsWith p rest = !(rest.takeWhile p).isEmpty := by
  cases rest with
  | nil => rfl
  | cons c rest => cases h : p c <;> simp [startsWith, h]

/-- A dot is taken along with the digits behind it, and alone it is not. -/
theorem fractionPart_left : LooksNoFurther fractionPart := by
  intro rest more hle
  cases rest with
  | nil => exact (List.length_eq_zero_iff.1 (Nat.le_zero.1 hle)).symm
  | cons c rest =>
    by_cases hc : c = '.'
    · subst hc
      refine marked_left (takeWhile_left Char.isDigit) (fun rest => ?_) hle
      rw [fractionPart, startsWith_eq]
      cases (rest.takeWhile Char.isDigit).isEmpty <;> rfl
    · simp [fractionPart, hc]

/-- The sign and the digits of an exponent, if at least one digit is there. -/
def signedDigits (rest : List Char) : List Char :=
  let digits := (rest.drop (signPart rest).length).takeWhile Char.isDigit
  if digits.isEmpty then [] else signPart rest ++ digits

theorem signedDigits_left : LooksNoFurther signedDigits := by
  intro rest more hle
  cases rest with
  | nil => exact (List.length_eq_zero_iff.1 (Nat.le_zero.1 hle)).symm
  | cons c rest =>
    have hsign : signPart (c :: rest ++ more) = signPart (c :: rest) := rfl
    have hfits := signPart_isPrefix (c :: rest)
    unfold signedDigits at hle ⊢
    dsimp only at hle ⊢
    rw [hsign, List.drop_append_of_le_length hfits.length_le] at hle ⊢
    have hdigits : ((((c :: rest).drop (signPart (c :: rest)).length) ++ more).takeWhile
        Char.isDigit).length ≤ ((c :: rest).drop (signPart (c :: rest)).length).length := by
      rw [List.length_drop]
      split at hle
      · next hempty => simp [List.isEmpty_iff.1 hempty]
      · rw [List.length_append] at hle
        omega
    rw [takeWhile_left _ hdigits]

theorem exponentPart_eq (c : Char) (rest : List Char) :
    exponentPart (c :: rest) = if c = 'e' || c = 'E' then
      if (signedDigits rest).isEmpty then [] else c :: signedDigits rest else [] := by
  unfold exponentPart signedDigits
  dsimp only
  generalize (rest.drop (signPart rest).length).takeWhile Char.isDigit = digits
  cases digits <;> cases c = 'e' || c = 'E' <;> simp

theorem exponentPart_left : LooksNoFurther exponentPart := by
  intro rest more hle
  cases rest with
  | nil => exact (List.length_eq_zero_iff.1 (Nat.le_zero.1 hle)).symm
  | cons c rest =>
    by_cases hmark : c = 'e' || c = 'E'
    · refine marked_left signedDigits_left (fun rest => ?_) hle
      rw [exponentPart_eq, if_pos hmark]
    · rw [List.cons_append, exponentPart_eq, exponentPart_eq, if_neg hmark, if_neg hmark]

theorem numberTail_left (h : (numberTail (rest ++ more)).1.length ≤ rest.length) :
    numberTail rest = numberTail (rest ++ more) := by
  unfold numberTail at h ⊢
  dsimp only at h ⊢
  simp only [List.length_append] at h
  have hwhole : rest.takeWhile Char.isDigit = (rest ++ more).takeWhile Char.isDigit :=
    takeWhile_left _ (by omega)
  have hfits := (List.takeWhile_prefix Char.isDigit (l := rest)).length_le
  rw [← hwhole, List.drop_append_of_le_length hfits] at h ⊢
  have hlength := List.length_drop (i := (rest.takeWhile Char.isDigit).length) (l := rest)
  generalize rest.drop (rest.takeWhile Char.isDigit).length = behind at h hlength ⊢
  have hfraction : fractionPart behind = fractionPart (behind ++ more) :=
    fractionPart_left (by omega)
  have hfits' := (fractionPart_isPrefix behind).length_le
  rw [← hfraction, List.drop_append_of_le_length hfits'] at h ⊢
  have hlength' := List.length_drop (i := (fractionPart behind).length) (l := behind)
  generalize behind.drop (fractionPart behind).length = behind' at h hlength' ⊢
  have hexponent : exponentPart behind' = exponentPart (behind' ++ more) :=
    exponentPart_left (by omega)
  rw [hexponent]

theorem stringTail_ne_nil {text : List Char} (h : (stringTail text).2) :
    (stringTail text).1 ≠ [] := by
  fun_cases stringTail text
  · cases h
  all_goals simp

/-- A string that its quote closes within a text is closed there. -/
theorem stringTail_left (h : (stringTail (rest ++ more)).2)
    (hle : (stringTail (rest ++ more)).1.length ≤ rest.length) : (stringTail rest).2 := by
  fun_induction stringTail rest with
  | case1 =>
    exact absurd (List.length_eq_zero_iff.1 (Nat.le_zero.1 hle)) (stringTail_ne_nil h)
  | case2 => rfl
  | case3 c rest text complete heq ih =>
    rw [heq] at ih
    rw [List.cons_append, List.cons_append, stringTail] at h hle
    exact ih h (Nat.le_of_succ_le_succ (Nat.le_of_succ_le_succ hle))
  | case4 c rest hquote hbackslash text complete heq ih =>
    rw [heq] at ih
    by_cases hescape : ∃ e later, c = '\\' ∧ rest ++ more = e :: later
    · -- The backslash takes along a character that is not there.
      obtain ⟨e, later, rfl, hsplit⟩ := hescape
      cases rest with
      | nil =>
        rw [List.cons_append, hsplit, stringTail] at hle
        simp at hle
      | cons e' rest => exact (hbackslash e' rest rfl rfl).elim
    · have hmore : ∀ (e : Char) (later : List Char),
          c = '\\' → rest ++ more = e :: later → False :=
        fun e later hc hsplit => hescape ⟨e, later, hc, hsplit⟩
      have hstep : stringTail (c :: (rest ++ more)) =
          (c :: (stringTail (rest ++ more)).1, (stringTail (rest ++ more)).2) := by
        rw [stringTail]
        · exact hquote
        · exact hmore
      rw [List.cons_append, hstep] at h hle
      exact ih h (Nat.le_of_succ_le_succ hle)

theorem jsonTail_ne_nil {text : List Char} (h : (jsonTail text).2) : (jsonTail text).1 ≠ [] := by
  fun_cases jsonTail text
  · cases h
  all_goals simp

/-- And so is a JSON literal. -/
theorem jsonTail_left (h : (jsonTail (rest ++ more)).2)
    (hle : (jsonTail (rest ++ more)).1.length ≤ rest.length) : (jsonTail rest).2 := by
  fun_induction jsonTail rest with
  | case1 => exact absurd (List.length_eq_zero_iff.1 (Nat.le_zero.1 hle)) (jsonTail_ne_nil h)
  | case2 => rfl
  | case3 c rest hclosing text complete heq ih =>
    rw [heq] at ih
    by_cases hclosed : ∃ later, c = '|' ∧ rest ++ more = '}' :: later
    · -- The second half of the delimiter is not there.
      obtain ⟨later, rfl, hsplit⟩ := hclosed
      cases rest with
      | nil =>
        rw [List.cons_append, hsplit, jsonTail] at hle
        simp at hle
      | cons e rest =>
        obtain ⟨rfl, -⟩ := List.cons.inj hsplit
        exact (hclosing rest rfl rfl).elim
    · have hmore : ∀ later : List Char, c = '|' → rest ++ more = '}' :: later → False :=
        fun later hc hsplit => hclosed ⟨later, hc, hsplit⟩
      have hstep : jsonTail (c :: (rest ++ more)) =
          (c :: (jsonTail (rest ++ more)).1, (jsonTail (rest ++ more)).2) := by
        rw [jsonTail]
        exact hmore
      rw [List.cons_append, hstep] at h hle
      exact ih h (Nat.le_of_succ_le_succ hle)

/-! ## Pieces -/

/-- What opens a condition already opens one with more behind it. -/
theorem opensCondition_of_left (h : opensCondition rest) : opensCondition (rest ++ more) := by
  unfold opensCondition at h
  split at h
  · next behind =>
    cases behind with
    | nil => cases h
    | cons c behind => exact h
  · cases h

/-- A word ends where its characters do, and the mark of a condition is no standalone piece. -/
theorem word_left {c : Char} (hstandalone : (word c (rest ++ more)).Standalone)
    (hle : (word c (rest ++ more)).more.length ≤ rest.length) :
    word c rest = word c (rest ++ more) := by
  unfold word at hstandalone hle ⊢
  by_cases hmark : c = 'c' && opensCondition (rest ++ more)
  · rw [if_pos hmark] at hstandalone
    exact absurd rfl (hstandalone _ _ rfl).2
  · have hmark' : ¬(c = 'c' && opensCondition rest) := by
      rw [Bool.and_eq_true] at hmark ⊢
      exact fun h => hmark ⟨h.1, opensCondition_of_left h.2⟩
    rw [if_neg hmark] at hle ⊢
    rw [if_neg hmark', takeWhile_left isWordPart hle]

/-- A number looks no further than the part that it is made of. -/
theorem number_left {afterVersion : Bool} {c : Char}
    (hle : (number afterVersion c (rest ++ more)).more.length ≤ rest.length) :
    number afterVersion c rest = number afterVersion c (rest ++ more) := by
  cases afterVersion with
  | true =>
    have htail : versionTail rest = versionTail (rest ++ more) := versionTail_left hle
    exact congrArg (ofKind .versionNumber c) htail
  | false =>
    have htail : numberTail rest = numberTail (rest ++ more) := numberTail_left hle
    unfold number
    rw [htail]
    rfl

/-- The first operator that fits is the same when what is behind it is left out. -/
theorem symbol_left {c : Char} (hle : (symbol c (rest ++ more)).more.length ≤ rest.length) :
    symbol c rest = symbol c (rest ++ more) := by
  have hfit {spelling : List Char} (h : ¬spelling.isPrefixOf (c :: (rest ++ more))) :
      ¬spelling.isPrefixOf (c :: rest) := by
    rw [List.isPrefixOf_iff_prefix] at h ⊢
    exact fun hfits => h (hfits.trans ⟨more, rfl⟩)
  -- what did not fit with more behind it does not fit without
  have hnone {entries : List (List Char × Kind)}
      (h : ∀ entry ∈ entries, ¬entry.1.isPrefixOf (c :: (rest ++ more))) :
      entries.find? (·.1.isPrefixOf (c :: rest)) = none :=
    List.find?_eq_none.2 fun entry hentry => hfit (h entry hentry)
  unfold symbol at hle ⊢
  cases hfind : Kind.operators.find? (·.1.isPrefixOf (c :: (rest ++ more))) with
  | none => rw [hnone (List.find?_eq_none.1 hfind)]
  | some entry =>
    rw [hfind] at hle
    obtain ⟨hentry, before, behind, hsplit, hbefore⟩ := List.find?_eq_some_iff_append.1 hfind
    have hfits : entry.1.isPrefixOf (c :: rest) := by
      rw [List.isPrefixOf_iff_prefix] at hentry ⊢
      refine List.prefix_of_prefix_length_le hentry ⟨more, rfl⟩ ?_
      have hlength : entry.1.tail.length ≤ rest.length := hle
      rw [List.length_tail] at hlength
      rw [List.length_cons]
      omega
    have hfind' : Kind.operators.find? (·.1.isPrefixOf (c :: rest)) = some entry := by
      -- the operators tried before it have failed, and still fail
      have hskipped := hnone fun e he => by
        rw [Bool.not_eq_true, ← Bool.not_eq_true']
        exact hbefore e he
      rw [hsplit, List.find?_append, hskipped, Option.none_or, List.find?_cons, hfits]
    rw [hfind']

/-- A piece that lies in a text is the same when the text behind it is left out. -/
theorem leading_left {afterVersion : Bool} {c : Char}
    (hstandalone : (leading afterVersion c (rest ++ more)).Standalone)
    (hle : (leading afterVersion c (rest ++ more)).more.length ≤ rest.length) :
    leading afterVersion c rest = leading afterVersion c (rest ++ more) := by
  unfold leading at hstandalone hle ⊢
  -- The cases are those of `leading`, in its order.
  by_cases hspace : isSpace c
  · rw [if_pos hspace, if_pos hspace]
  rw [if_neg hspace] at hstandalone hle ⊢
  rw [if_neg hspace]
  by_cases hcomment : c = '#'
  · rw [if_pos hcomment] at hle ⊢
    rw [if_pos hcomment, takeWhile_left _ hle]
  rw [if_neg hcomment] at hstandalone hle ⊢
  rw [if_neg hcomment]
  by_cases hnewline : c = '\n'
  · rw [if_pos hnewline, if_pos hnewline]
  rw [if_neg hnewline] at hstandalone hle ⊢
  rw [if_neg hnewline]
  by_cases hdigit : c.isDigit
  · rw [if_pos hdigit] at hstandalone hle ⊢
    rw [if_pos hdigit, number_left hle]
  rw [if_neg hdigit] at hstandalone hle ⊢
  rw [if_neg hdigit]
  by_cases hword : isWordStart c
  · rw [if_pos hword] at hstandalone hle ⊢
    rw [if_pos hword, word_left hstandalone hle]
  rw [if_neg hword] at hstandalone hle ⊢
  rw [if_neg hword]
  by_cases hquote : c = '"'
  · rw [if_pos hquote] at hstandalone hle ⊢
    have hclosed := stringTail_left (hstandalone _ _ rfl).1 hle
    rw [if_pos hquote, string, string, stringTail_append hclosed]
  rw [if_neg hquote] at hstandalone hle ⊢
  rw [if_neg hquote]
  by_cases hjson : c = '{' && (rest ++ more).head? = some '|'
  · rw [if_pos hjson] at hstandalone hle ⊢
    cases rest with
    | nil => cases hle
    | cons d rest =>
      have hjson' : c = '{' && (d :: rest).head? = some '|' := hjson
      have hclosed := jsonTail_left (hstandalone _ _ rfl).1 (Nat.le_of_succ_le_succ hle)
      rw [if_pos hjson']
      show json rest = json (rest ++ more)
      rw [json, json, jsonTail_append hclosed]
  · have hjson' : ¬(c = '{' && rest.head? = some '|') := by
      cases rest with
      | nil => simp
      | cons d rest => exact hjson
    rw [if_neg hjson] at hle ⊢
    rw [if_neg hjson', symbol_left hle]

/-- What stands right behind the keyword `version` matters only if it starts with a digit. -/
theorem leading_of_portable {afterVersion : Bool} {c : Char}
    (hportable : (leading afterVersion c rest).Portable) :
    leading false c rest = leading afterVersion c rest := by
  cases afterVersion with
  | false => rfl
  | true =>
    by_cases hdigit : c.isDigit
    · rw [leading_of_isDigit hdigit] at hportable
      cases (hportable _ _ rfl).2
    · unfold leading
      simp only [hdigit]
      rfl

/-! ## Whole texts -/

/-- A portable piece is not the keyword `version`. -/
theorem isAfterVersion_of_portable {piece : Lexeme} (h : piece.Portable) :
    isAfterVersion false piece = false := by
  unfold isAfterVersion
  split
  · next kind complete hrole =>
    have hkind := (h kind complete hrole).2
    cases kind <;> first | rfl | cases hkind
  · rfl

theorem cutFrom_left {afterVersion : Bool} {pieces right : List Lexeme}
    (h : cutFrom afterVersion 0 (pieces.flatMap text ++ more) = pieces ++ right)
    (hportable : ∀ piece ∈ pieces, piece.Portable) : cut (pieces.flatMap text) = pieces := by
  induction pieces generalizing afterVersion with
  | nil => rfl
  | cons piece pieces ih =>
    obtain ⟨hpiece, hpieces⟩ := List.forall_mem_cons.1 hportable
    have hsplit : (piece :: pieces).flatMap text ++ more =
        piece.first :: (piece.more ++ pieces.flatMap text ++ more) := by
      simp [text]
    rw [hsplit, cutFrom_cons] at h
    obtain ⟨hleading, hrest⟩ := List.cons.inj h
    -- The first piece is the same without the text behind, and without the keyword in front.
    have hsame : leading false piece.first (piece.more ++ pieces.flatMap text) = piece := by
      have hself :
          leading afterVersion piece.first (piece.more ++ pieces.flatMap text) = piece := by
        refine (leading_left ?_ ?_).trans hleading
        · rw [hleading]
          exact hpiece.standalone
        · rw [hleading, List.length_append]
          exact Nat.le_add_right ..
      refine (leading_of_portable ?_).trans hself
      rwa [hself]
    rw [hleading, List.append_assoc, List.drop_left] at hrest
    rw [cut, List.flatMap_cons, cutFrom_of_leading hsame, isAfterVersion_of_portable hpiece]
    exact congrArg (piece :: ·) (ih hrest hpieces)

/-- Pieces side by side are the pieces of what they make up. -/
theorem cut_flatMap_text {text : List Char} {left pieces right : List Lexeme}
    (h : cut text = left ++ (pieces ++ right)) (hportable : ∀ piece ∈ pieces, piece.Portable) :
    cut (pieces.flatMap Lexeme.text) = pieces := by
  obtain ⟨afterVersion, hcut⟩ := exists_cutFrom_of_append h
  rw [List.flatMap_append] at hcut
  exact cutFrom_left hcut hportable

end Lexeme

/-! ## Tokens -/

/-- The tokens that pieces make from a place on. -/
def tokensOf (place : Position) (pieces : List Lexeme) : List Token :=
  (Item.ofLexemes place pieces).filterMap Item.token?

section

variable {place : Position} {pieces : List Lexeme} {piece : Lexeme} {token : Token}
  {ts us : List Token}

/-- The tokens of the first pieces, and those of the others from where these end. -/
theorem tokensOf_append (place : Position) (left right : List Lexeme) :
    tokensOf place (left ++ right) =
      tokensOf place left ++ tokensOf (place.after (left.flatMap Lexeme.text)) right := by
  rw [tokensOf, Item.ofLexemes_append, List.filterMap_append]
  rfl

theorem tokensOf_cons (place : Position) (piece : Lexeme) (pieces : List Lexeme) :
    tokensOf place (piece :: pieces) =
      ((Item.ofLexeme? place piece).bind Item.token?).toList ++
        tokensOf (place.after piece.text) pieces := by
  rw [tokensOf, Item.ofLexemes, List.filterMap_append]
  cases Item.ofLexeme? place piece with
  | none => rfl
  | some item =>
    cases item <;> rfl

/-- In front of any of its tokens, a text can be cut in two. -/
theorem exists_split_of_tokensOf (h : tokensOf place pieces = ts ++ token :: us) :
    ∃ left piece right, pieces = left ++ piece :: right ∧ tokensOf place left = ts ∧
      Item.ofLexeme? (place.after (left.flatMap Lexeme.text)) piece = some (.token token) ∧
      tokensOf (place.after ((left ++ [piece]).flatMap Lexeme.text)) right = us := by
  induction pieces generalizing place ts with
  | nil => cases ts <;> cases h
  | cons piece pieces ih =>
    rw [tokensOf_cons] at h
    -- Behind the first piece it is the induction hypothesis, whether or not that piece is a token.
    have hlater {later : List Token} (hrest : tokensOf (place.after piece.text) pieces =
        later ++ token :: us)
        (hts : ((Item.ofLexeme? place piece).bind Item.token?).toList ++ later = ts) :
        ∃ left piece' right, piece :: pieces = left ++ piece' :: right ∧ tokensOf place left = ts ∧
          Item.ofLexeme? (place.after (left.flatMap Lexeme.text)) piece' = some (.token token) ∧
          tokensOf (place.after ((left ++ [piece']).flatMap Lexeme.text)) right = us := by
      obtain ⟨left, piece', right, rfl, hleft, hpiece, hright⟩ := ih hrest
      refine ⟨piece :: left, piece', right, rfl, ?_, ?_, ?_⟩
      · rw [tokensOf_cons, hleft, hts]
      · rwa [Item.after_flatMap_cons]
      · rwa [List.cons_append, Item.after_flatMap_cons]
    cases hitem : (Item.ofLexeme? place piece).bind Item.token? with
    | none =>
      rw [hitem] at h hlater
      exact hlater h rfl
    | some first =>
      rw [hitem] at h hlater
      cases ts with
      | nil =>
        obtain ⟨rfl, hrest⟩ := List.cons.inj h
        refine ⟨[], piece, pieces, rfl, rfl, ?_, by simpa using hrest⟩
        obtain ⟨item, hitem, hfirst⟩ := Option.bind_eq_some_iff.1 hitem
        cases item <;> cases hfirst
        exact hitem
      | cons _ ts =>
        obtain ⟨rfl, hrest⟩ := List.cons.inj h
        exact hlater hrest rfl

/-- A piece that is a token is among the tokens. -/
theorem exists_mem_tokensOf {kind : Kind} {complete : Bool} (place : Position)
    (hpiece : piece ∈ pieces) (hrole : piece.role = .token kind complete) :
    ∃ token ∈ tokensOf place pieces, token.kind = kind := by
  obtain ⟨left, right, rfl⟩ := List.append_of_mem hpiece
  rw [tokensOf_append, tokensOf_cons, Item.ofLexeme?, hrole]
  exact ⟨_, List.mem_append_right _ List.mem_cons_self, rfl⟩

/-- A row of tokens of a text, from the first to the last of them, is made by some of its pieces. -/
theorem exists_pieces_of_row {text : List Char} {front rest init rear : List Token}
    {first last : Token} (h : (TokenStream.ofText text).tokens = front ++ (first :: rest ++ rear))
    (hrow : first :: rest = init ++ [last]) :
    ∃ left pieces right, Lexeme.cut text = left ++ (pieces ++ right) ∧
      tokensOf first.start pieces = first :: rest ∧
      first.start = Position.start.after (left.flatMap Lexeme.text) ∧
      last.stop = first.start.after (pieces.flatMap Lexeme.text) := by
  have htokens : tokensOf .start (Lexeme.cut text) = front ++ first :: (rest ++ rear) := h
  obtain ⟨left, piece, behind, hcut, hleft, hpiece, hbehind⟩ := exists_split_of_tokensOf htokens
  have hstart : first.start = Position.start.after (left.flatMap Lexeme.text) :=
    Item.place_of_mem_ofLexeme? (Option.mem_toList.2 hpiece)
  -- From the piece of the first token on, the pieces go on up to that of the last one.
  have hfrom : tokensOf first.start (piece :: behind) = init ++ last :: rear := by
    have hplace : Position.start.after ((left ++ [piece]).flatMap Lexeme.text) =
        first.start.after piece.text := by
      rw [hstart, ← Position.after_append, List.flatMap_append, List.flatMap_singleton]
    rw [hplace] at hbehind
    rw [← hstart] at hpiece
    rw [tokensOf_cons, hpiece, hbehind, List.append_cons init, ← hrow]
    rfl
  obtain ⟨inner, piece', right, hsplit, hinner, hpiece', -⟩ := exists_split_of_tokensOf hfrom
  refine ⟨left, inner ++ [piece'], right, ?_, ?_, hstart, ?_⟩
  · rw [hcut, hsplit, List.append_assoc]
    rfl
  · rw [tokensOf_append, hinner, tokensOf_cons, hpiece', hrow]
    rfl
  · rw [Item.stop_of_ofLexeme? hpiece', ← Position.after_append, List.flatMap_append,
      List.flatMap_singleton]

end

end Cqasm
