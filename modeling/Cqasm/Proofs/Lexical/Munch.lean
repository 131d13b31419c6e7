import Cqasm.Proofs.Lexical.Grammar
import Cqasm.Proofs.Lexical.Slice
import Cqasm.Proofs.Printing.Word

/-!
# Pieces are the longest lexemes

What `Lexeme.leading` takes of a text is a lexeme (`isLexeme_leading`), no lexeme is longer and none
of another kind is as long (`IsLexeme.le_leading`), and it is a literal without an end exactly if
there is one (`isCutOff_iff_leading`). So it is what the lexical grammar delivers there
(`delivers_iff`).
-/

set_option autoImplicit false

namespace Cqasm.Lexical

open Lexeme

/-! ## Rows of characters of a class -/

section

variable {p : Char → Bool} {taken text left right : List Char}

/-- No row of characters of a class is longer than all of those that a text starts with. -/
theorem length_le_takeWhile (h : taken <+: text) (hall : ∀ c ∈ taken, p c) :
    taken.length ≤ (text.takeWhile p).length := by
  obtain ⟨rest, rfl⟩ := h
  rw [List.takeWhile_append_of_pos hall, List.length_append]
  exact Nat.le_add_right ..

/-- The only row that is as long is the longest one itself. -/
theorem eq_takeWhile (h : taken <+: text) (hlength : taken.length = (text.takeWhile p).length) :
    taken = text.takeWhile p :=
  (List.prefix_of_prefix_length_le h (List.takeWhile_prefix p) hlength.le).eq_of_length hlength

/-- Two longest parts make a longest whole, if no character of the left part could start the right
one. -/
theorem longest_append {P Q : List Char → Prop}
    (hleft : ∀ x, P x → x <+: text → x.length ≤ left.length) (hahead : left <+: text)
    (hright : ∀ y, Q y → y <+: text.drop left.length → y.length ≤ right.length)
    (hseam : ∀ c ∈ left, ∀ y, ¬Q (c :: y)) {x y : List Char} (hx : P x) (hy : Q y)
    (h : x ++ y <+: text) : (x ++ y).length ≤ (left ++ right).length := by
  have hxtext : x <+: text := (List.prefix_append x y).trans h
  have hxleft : x <+: left := List.prefix_of_prefix_length_le hxtext hahead (hleft x hx hxtext)
  obtain ⟨between, rfl⟩ := hxleft
  obtain ⟨rest, rfl⟩ := hahead
  -- The left part that is longest ends behind `x` or where `x` does.
  cases between with
  | nil =>
    rw [List.append_nil] at hright h ⊢
    rw [List.drop_left] at hright
    have hyright := hright y hy ((List.prefix_append_right_inj x).1 h)
    rw [List.length_append, List.length_append]
    exact Nat.add_le_add_left hyright _
  | cons c between =>
    -- The right part would have to start within the left one.
    rw [List.append_assoc, List.prefix_append_right_inj] at h
    cases y with
    | nil => simp
    | cons d y =>
      obtain ⟨rfl, -⟩ := List.cons_prefix_cons.1 h
      exact absurd hy (hseam d (by simp) y)

end

/-! ## Numbers -/

section

variable {text : List Char}

theorem isDigits_takeWhile (h : startsWith Char.isDigit text) :
    IsDigits (text.takeWhile Char.isDigit) := by
  refine ⟨fun hnil => ?_, fun c hc => List.all_eq_true.1 List.all_takeWhile c hc⟩
  rw [startsWith_eq, hnil] at h
  cases h

theorem IsDigits.startsWith {ds : List Char} (h : IsDigits ds) (more : List Char) :
    Lexeme.startsWith Char.isDigit (ds ++ more) := by
  obtain ⟨hne, hall⟩ := h
  cases ds with
  | nil => exact absurd rfl hne
  | cons c ds => exact hall c List.mem_cons_self

/-- What is taken for a fraction is one, or nothing. -/
theorem isFraction_fractionPart (text : List Char) : IsFraction (fractionPart text) := by
  unfold fractionPart
  split
  · split
    · next hdigit => exact .some (isDigits_takeWhile hdigit)
    · exact .none
  · exact .none

/-- A fraction goes on for as long as there are digits, so the one that is taken is the longest. -/
theorem IsFraction.length_le {fraction : List Char} (h : IsFraction fraction)
    (hahead : fraction <+: text) : fraction.length ≤ (fractionPart text).length := by
  cases h with
  | none => exact Nat.zero_le _
  | some hds =>
    obtain ⟨rest, rfl⟩ := hahead
    rw [List.cons_append, fractionPart, if_pos (hds.startsWith rest)]
    exact Nat.succ_le_succ (length_le_takeWhile (List.prefix_append ..) hds.2)

/-- What is taken for an exponent is one, or nothing: a mark without a digit behind it is left
alone. -/
theorem isExponent_exponentPart (text : List Char) : IsExponent (exponentPart text) := by
  cases text with
  | nil => exact .none
  | cons mark rest =>
    rw [exponentPart]
    split
    · next h =>
      obtain ⟨hmark, hdigits⟩ := Bool.and_eq_true_iff.1 h
      refine .some (by simpa using hmark) ?_ ⟨by simpa using hdigits, fun c hc => ?_⟩
      · unfold signPart
        split
        · next c _ =>
          split
          · next hsign =>
            rcases (by simpa using hsign : c = '+' ∨ c = '-') with rfl | rfl <;> simp
          · simp
        · simp
      · exact List.all_eq_true.1 List.all_takeWhile c hc
    · exact .none

/-- Whether there is a sign is decided by the first character, as digits are no signs. -/
theorem signPart_append_digits {sign ds : List Char} (hsign : sign ∈ [[], ['+'], ['-']])
    (hds : IsDigits ds) (rest : List Char) : signPart (sign ++ (ds ++ rest)) = sign := by
  simp only [List.mem_cons, List.not_mem_nil, or_false] at hsign
  rcases hsign with rfl | rfl | rfl
  · obtain ⟨hne, hall⟩ := hds
    cases ds with
    | nil => exact absurd rfl hne
    | cons c ds =>
      have hc : c.isDigit := hall c List.mem_cons_self
      have hplus : c ≠ '+' := by rintro rfl; cases hc
      have hminus : c ≠ '-' := by rintro rfl; cases hc
      simp [signPart, hplus, hminus]
  · rfl
  · rfl

/-- The same for exponents, whatever their sign. -/
theorem IsExponent.length_le {exponent : List Char} (h : IsExponent exponent)
    (hahead : exponent <+: text) : exponent.length ≤ (exponentPart text).length := by
  cases h with
  | none => exact Nat.zero_le _
  | @some mark sign ds hmark hsign hds =>
    obtain ⟨rest, rfl⟩ := hahead
    have hdigits := length_le_takeWhile (List.prefix_append ds rest) hds.2
    have hne : (ds ++ rest).takeWhile Char.isDigit ≠ [] :=
      (isDigits_takeWhile (hds.startsWith rest)).1
    rw [List.cons_append, List.append_assoc, exponentPart]
    rw [signPart_append_digits hsign hds, List.drop_left, if_pos (by simpa [hne] using hmark)]
    simpa using hdigits

theorem IsExponent.mark_mem {c : Char} {more : List Char} (h : IsExponent (c :: more)) :
    c ∈ ['e', 'E'] := by
  cases h with
  | some hmark => exact hmark

theorem IsFraction.dot_or_digit {fraction : List Char} (h : IsFraction fraction) :
    ∀ c ∈ fraction, c = '.' ∨ c.isDigit := by
  cases h with
  | none => simp
  | some hds => exact List.forall_mem_cons.2 ⟨.inl rfl, fun c hc => .inr (hds.2 c hc)⟩

/-- The row of digits in front is over where a fraction or an exponent begins. So there is one way
only to divide a number. -/
theorem not_isDigit_of_isFraction_append {fraction exponent more : List Char} {c : Char}
    (hfraction : IsFraction fraction) (hexponent : IsExponent exponent)
    (h : fraction ++ exponent = c :: more) : c.isDigit = false := by
  cases hfraction with
  | none =>
    rw [List.nil_append] at h
    rw [h] at hexponent
    have hmark := hexponent.mark_mem
    simp only [List.mem_cons, List.not_mem_nil, or_false] at hmark
    rcases hmark with rfl | rfl <;> decide
  | some =>
    obtain ⟨rfl, -⟩ := List.cons.inj h
    decide

/-- A number is all digits exactly if it has neither a fraction nor an exponent. -/
theorem forall_isDigit_iff {whole fraction exponent : List Char} (hwhole : IsDigits whole)
    (hfraction : IsFraction fraction) (hexponent : IsExponent exponent) :
    (∀ c ∈ whole ++ (fraction ++ exponent), c.isDigit) ↔ fraction = [] ∧ exponent = [] := by
  constructor
  · intro h
    rw [← List.append_eq_nil_iff]
    cases hbehind : fraction ++ exponent with
    | nil => rfl
    | cons c more =>
      have hc := not_isDigit_of_isFraction_append hfraction hexponent hbehind
      rw [h c (by simp [hbehind])] at hc
      cases hc
  · rintro ⟨rfl, rfl⟩
    simpa using hwhole.2

/-- The fraction of a number that starts a text. -/
abbrev fractionOf (text : List Char) : List Char :=
  fractionPart (text.drop (text.takeWhile Char.isDigit).length)

/-- The exponent of a number that starts a text. -/
abbrev exponentOf (text : List Char) : List Char :=
  exponentPart ((text.drop (text.takeWhile Char.isDigit).length).drop (fractionOf text).length)

/-- The digits, the fraction and the exponent that a text starts with are the longest number that
it starts with. -/
theorem number_length_le {whole fraction exponent : List Char} (hwhole : IsDigits whole)
    (hfraction : IsFraction fraction) (hexponent : IsExponent exponent)
    (h : whole ++ (fraction ++ exponent) <+: text) :
    (whole ++ (fraction ++ exponent)).length ≤
      (text.takeWhile Char.isDigit ++ (fractionOf text ++ exponentOf text)).length := by
  let IsEnd (y : List Char) : Prop := ∃ f e, IsFraction f ∧ IsExponent e ∧ y = f ++ e
  refine longest_append (P := IsDigits) (Q := IsEnd) (fun x hx hahead => ?_)
    (List.takeWhile_prefix _) ?_ ?_ hwhole ⟨_, _, hfraction, hexponent, rfl⟩ h
  · exact length_le_takeWhile hahead hx.2
  · rintro _ ⟨f, e, hf, he, rfl⟩ hahead
    refine longest_append (fun x hx hahead => hx.length_le hahead) (fractionPart_isPrefix _)
      (fun y hy hahead => hy.length_le hahead) (fun c hc y hy => ?_) hf he hahead
    have hmark := hy.mark_mem
    rcases (isFraction_fractionPart _).dot_or_digit c hc with rfl | hdigit
    · exact absurd hmark (by decide)
    · simp only [List.mem_cons, List.not_mem_nil, or_false] at hmark
      rcases hmark with rfl | rfl <;> cases hdigit
  · rintro c hc y ⟨f, e, hf, he, hsplit⟩
    have hdigit : c.isDigit := List.all_eq_true.1 List.all_takeWhile c hc
    rw [not_isDigit_of_isFraction_append hf he hsplit.symm] at hdigit
    cases hdigit

/-- The parts that are taken stand one behind the other at the beginning of the text. -/
theorem number_isPrefix (text : List Char) :
    text.takeWhile Char.isDigit ++ (fractionOf text ++ exponentOf text) <+: text :=
  append_isPrefix (List.takeWhile_prefix _)
    (append_isPrefix (fractionPart_isPrefix _) (exponentPart_isPrefix _))

/-- What is taken for a number, as its three parts. It is an integer if it is nothing but digits. -/
theorem exists_number {c : Char} (hc : c.isDigit) (rest : List Char) :
    ∃ more, number false c rest = ofKind
        (if fractionOf (c :: rest) = [] ∧ exponentOf (c :: rest) = [] then .integer else .float)
        c more ∧
      c :: more = (c :: rest).takeWhile Char.isDigit ++
        (fractionOf (c :: rest) ++ exponentOf (c :: rest)) := by
  have htake : (c :: rest).takeWhile Char.isDigit = c :: rest.takeWhile Char.isDigit :=
    List.takeWhile_cons_of_pos hc
  have hfraction : fractionOf (c :: rest) =
      fractionPart (rest.drop (rest.takeWhile Char.isDigit).length) := by
    rw [fractionOf, htake, List.length_cons, List.drop_succ_cons]
  have hexponent : exponentOf (c :: rest) =
      exponentPart ((rest.drop (rest.takeWhile Char.isDigit).length).drop
        (fractionOf (c :: rest)).length) := by
    rw [exponentOf, htake, List.length_cons, List.drop_succ_cons]
  have hparts : number false c rest =
      ofKind (if !((fractionOf (c :: rest)).isEmpty && (exponentOf (c :: rest)).isEmpty)
          then .float else .integer) c
        (rest.takeWhile Char.isDigit ++ fractionOf (c :: rest) ++ exponentOf (c :: rest)) := by
    rw [hexponent, hfraction]
    rfl
  refine ⟨_, ?_, by rw [htake, List.cons_append]⟩
  rw [hparts, List.append_assoc]
  cases fractionOf (c :: rest) <;> cases exponentOf (c :: rest) <;> rfl

end

/-! ## Numbers of versions -/

theorem isDigits_cons {c : Char} {ds : List Char} (hc : c.isDigit) (h : IsDigits ds) :
    IsDigits (c :: ds) :=
  ⟨List.cons_ne_nil _ _, List.forall_mem_cons.2 ⟨hc, h.2⟩⟩

theorem isDigits_singleton {c : Char} (hc : c.isDigit) : IsDigits [c] :=
  ⟨List.cons_ne_nil _ _, List.forall_mem_singleton.2 hc⟩

theorem IsVersionNumber.cons {c : Char} {text : List Char} (hc : c.isDigit)
    (h : IsVersionNumber text) : IsVersionNumber (c :: text) := by
  cases h with
  | digits hds => exact .digits (isDigits_cons hc hds)
  | dotted hds hmore => exact .dotted (isDigits_cons hc hds) hmore

theorem IsVersionNumber.startsWith {text : List Char} (h : IsVersionNumber text)
    (more : List Char) : Lexeme.startsWith Char.isDigit (text ++ more) := by
  cases h with
  | digits hds => exact hds.startsWith more
  | dotted hds =>
    rw [List.append_assoc]
    exact hds.startsWith _

theorem versionTail_of_isDigit {c : Char} (hc : c.isDigit) (rest : List Char) :
    versionTail (c :: rest) = c :: versionTail rest := by
  rw [versionTail, hc, Bool.true_or, if_pos rfl]

/-- A dot is taken along in front of a digit only. -/
theorem versionTail_of_dot {rest : List Char} (h : startsWith Char.isDigit rest) :
    versionTail ('.' :: rest) = '.' :: versionTail rest := by
  rw [versionTail, h]
  rfl

/-- What is taken for the number of a version is one. -/
theorem isVersionNumber_versionTail {text : List Char} (h : startsWith Char.isDigit text) :
    IsVersionNumber (versionTail text) := by
  induction hlength : text.length using Nat.strongRecOn generalizing text with
  | ind length ih =>
    subst hlength
    cases text with
    | nil => cases h
    | cons c rest =>
      have hc : c.isDigit := h
      rw [versionTail_of_isDigit hc]
      -- Behind a digit there is another one, or a dot in front of one, or else the number is over.
      by_cases hrest : startsWith Char.isDigit rest
      · exact (ih rest.length (by simp) hrest rfl).cons hc
      cases rest with
      | nil => exact .digits (isDigits_singleton hc)
      | cons d rest =>
        by_cases hdot : d = '.' ∧ startsWith Char.isDigit rest
        · obtain ⟨rfl, hdigit⟩ := hdot
          rw [versionTail_of_dot hdigit]
          have hshorter : rest.length < (c :: '.' :: rest).length := by
            rw [List.length_cons, List.length_cons]
            omega
          exact .dotted (isDigits_singleton hc) (ih rest.length hshorter hdigit rfl)
        · have hd : d.isDigit = false := by simpa [startsWith] using hrest
          have hover : versionTail (d :: rest) = [] := by
            rw [versionTail, if_neg (by simpa [hd] using hdot)]
          rw [hover]
          exact .digits (isDigits_singleton hc)

/-- A number of a version is never longer than what is taken for one. -/
theorem IsVersionNumber.length_le {text : List Char} (h : IsVersionNumber text)
    (behind : List Char) : text.length ≤ (versionTail (text ++ behind)).length := by
  induction h with
  | digits hds =>
    rw [Word.versionTail_of_digits hds.2, List.length_append]
    exact Nat.le_add_right ..
  | @dotted ds more hds hmore ih =>
    rw [List.append_assoc, List.cons_append, Word.versionTail_of_digits hds.2,
      versionTail_of_dot (hmore.startsWith behind), List.length_append, List.length_append]
    exact Nat.add_le_add_left (Nat.succ_le_succ ih) _

/-! ## Literals -/

/-- A literal is over at the first quote that is not escaped, whatever is behind it. -/
theorem stringTail_of_body {body : List Char} (h : IsStringBody body) (behind : List Char) :
    stringTail (body ++ '"' :: behind) = (body ++ ['"'], true) := by
  induction h with
  | nil => rfl
  | plain hquote hbackslash _ ih =>
    rw [List.cons_append, Word.stringTail_cons hquote hbackslash, ih, List.cons_append]
  | escaped _ ih =>
    rw [List.cons_append, List.cons_append, stringTail, ih, List.cons_append, List.cons_append]

/-- The rest of a literal that is closed is a body with a quote behind it. -/
theorem exists_body_of_stringTail {rest : List Char} (h : (stringTail rest).2) :
    ∃ body, IsStringBody body ∧ (stringTail rest).1 = body ++ ['"'] := by
  fun_induction stringTail rest with
  | case1 => cases h
  | case2 => exact ⟨[], .nil, rfl⟩
  | case3 c rest text complete heq ih =>
    rw [heq] at ih
    obtain ⟨body, hbody, htext⟩ := ih h
    exact ⟨_, .escaped hbody, congrArg ('\\' :: c :: ·) htext⟩
  | case4 c rest hquote hbackslash text complete heq ih =>
    rw [heq] at ih
    obtain ⟨body, hbody, htext⟩ := ih h
    refine ⟨_, .plain hquote ?_ hbody, congrArg (c :: ·) htext⟩
    rintro rfl
    cases rest with
    | nil =>
      rw [stringTail] at heq
      cases heq
      cases h
    | cons d rest => exact hbackslash d rest rfl rfl

/-- A literal is over at the first closing delimiter. -/
theorem jsonTail_of_body {body : List Char} (h : ¬['|', '}'] <:+: body) (behind : List Char) :
    jsonTail (body ++ ['|', '}'] ++ behind) = (body ++ ['|', '}'], true) := by
  have hclosed := Word.jsonTail_closed h
  rw [jsonTail_append (by rw [hclosed]), hclosed]

/-- The rest of a literal that is closed has its closing delimiter at its end and nowhere else. -/
theorem exists_body_of_jsonTail {rest : List Char} (h : (jsonTail rest).2) :
    ∃ body, ¬['|', '}'] <:+: body ∧ (jsonTail rest).1 = body ++ ['|', '}'] := by
  fun_induction jsonTail rest with
  | case1 => cases h
  | case2 => exact ⟨[], by decide, rfl⟩
  | case3 c rest hclosing text complete heq ih =>
    rw [heq] at ih
    obtain ⟨body, hbody, htext⟩ := ih h
    refine ⟨c :: body, fun hinfix => ?_, congrArg (c :: ·) htext⟩
    rcases List.infix_cons_iff.1 hinfix with hahead | hinfix
    · obtain ⟨rfl, later, rfl⟩ := List.cons_prefix_cons.1 hahead
      have hrest : (jsonTail rest).1 <+: rest := jsonTail_isPrefix rest
      rw [heq] at hrest
      obtain ⟨behind, rfl⟩ := hrest
      rw [show text = _ from htext] at hclosing
      exact hclosing _ rfl rfl
    · exact hbody hinfix

/-! ## Pieces by their first character -/

theorem opens_json (afterVersion : Bool) (rest : List Char) :
    leading afterVersion '{' ('|' :: rest) = json rest := rfl

theorem opens_string (afterVersion : Bool) (rest : List Char) :
    leading afterVersion '"' rest = string rest := rfl

/-- Whatever an operator starts with starts no other token, except that a brace may open a JSON
literal. -/
theorem leading_of_operator {entry : List Char × Kind} (h : entry ∈ Kind.operators)
    (afterVersion : Bool) {c : Char} {more : List Char} (hentry : entry.1 = c :: more)
    {rest : List Char} (hjson : ¬(c = '{' ∧ rest.head? = some '|')) :
    leading afterVersion c rest = symbol c rest := by
  have hall : ∀ entry ∈ Kind.operators, entry.1.head?.all fun d => isSpace d = false ∧ d ≠ '#' ∧
      d ≠ '\n' ∧ d.isDigit = false ∧ isWordStart d = false ∧ d ≠ '"' := by decide
  have hc := hall entry h
  rw [hentry] at hc
  obtain ⟨hspace, hhash, hnewline, hdigit, hword, hquote⟩ := of_decide_eq_true hc
  simp [leading, hspace, hhash, hnewline, hdigit, hword, hquote, hjson]

/-- The first operator of the table that fits is the longest one, and there is no other one of its
length. -/
theorem symbol_of_operator {entry : List Char × Kind} (h : entry ∈ Kind.operators) {c : Char}
    {rest : List Char} (hahead : entry.1 <+: c :: rest) :
    ∃ longest ∈ Kind.operators, symbol c rest = ofKind longest.2 c longest.1.tail ∧
      longest.1 <+: c :: rest ∧ entry.1.length ≤ longest.1.length ∧
      (entry.1.length = longest.1.length → entry.2 = longest.2) := by
  have hlengths : Kind.operators.Pairwise fun a b => b.1.length ≤ a.1.length := by decide
  have hkinds : ∀ a ∈ Kind.operators, ∀ b ∈ Kind.operators, a.1 = b.1 → a.2 = b.2 := by decide
  have hfits : entry.1.isPrefixOf (c :: rest) := List.isPrefixOf_iff_prefix.2 hahead
  -- The table is in the order of length, so that nothing behind the entry that is found is longer.
  cases hfind : Kind.operators.find? (·.1.isPrefixOf (c :: rest)) with
  | none => exact absurd hfits (List.find?_eq_none.1 hfind entry h)
  | some longest =>
    obtain ⟨hlongest, before, behind, hsplit, hbefore⟩ := List.find?_eq_some_iff_append.1 hfind
    have hmem : longest ∈ Kind.operators := List.mem_of_find?_eq_some hfind
    rw [List.isPrefixOf_iff_prefix] at hlongest
    refine ⟨longest, hmem, by rw [symbol, hfind], hlongest, ?_, fun hlength => ?_⟩
    · rw [hsplit] at h hlengths
      rcases List.mem_append.1 h with h | h
      · have hskipped := hbefore entry h
        rw [hfits] at hskipped
        cases hskipped
      · rcases List.mem_cons.1 h with rfl | h
        · exact Nat.le_refl _
        · exact (List.pairwise_cons.1 (List.pairwise_append.1 hlengths).2.1).1 entry h
    · refine hkinds entry h longest hmem ?_
      exact (List.prefix_of_prefix_length_le hahead hlongest hlength.le).eq_of_length hlength

/-! ## No lexeme is longer -/

/-- That a piece is a token of at least this length, and of this kind if it is no longer. A literal
without an end is the longest one anyway. -/
def Exceeds (kind : Kind) (text : List Char) (piece : Lexeme) : Prop :=
  ∃ kind' complete, piece.role = .token kind' complete ∧
    (complete → text.length ≤ piece.text.length ∧
      (text.length = piece.text.length → kind = kind'))

theorem exceeds_ofKind {kind kind' : Kind} {text more : List Char} {c : Char}
    (hle : text.length ≤ (c :: more).length)
    (hkind : text.length = (c :: more).length → kind = kind') :
    Exceeds kind text (ofKind kind' c more) :=
  ⟨kind', true, rfl, fun _ => ⟨hle, hkind⟩⟩

/-- Words are taken for as long as they go on. If a word is no longer than another one, they are the
same word and hence of one kind. -/
theorem exceeds_word (c : Char) {more : List Char} (hmore : ∀ d ∈ more, isWordPart d)
    (behind : List Char) :
    Exceeds ((Kind.ofKeyword? (c :: more)).getD .identifier) (c :: more)
      (word c (more ++ behind)) := by
  have hahead : more <+: more ++ behind := List.prefix_append ..
  have hle : more.length ≤ ((more ++ behind).takeWhile isWordPart).length :=
    length_le_takeWhile hahead hmore
  rw [word]
  split
  · next hcondition =>
    -- A lone letter is never as long as the mark of a condition.
    have hnil : more = [] := by
      cases more with
      | nil => rfl
      | cons d more =>
        have hpart : isWordPart d := hmore d List.mem_cons_self
        have hminus : d = '-' := by
          obtain ⟨-, hopens⟩ := Bool.and_eq_true_iff.1 hcondition
          unfold opensCondition at hopens
          split at hopens
          · next heq => exact (List.cons.inj heq).1
          · cases hopens
        rw [hminus] at hpart
        cases hpart
    subst hnil
    exact exceeds_ofKind (by simp) (by simp)
  · refine exceeds_ofKind (Nat.succ_le_succ hle) fun hlength => ?_
    rw [← eq_takeWhile hahead (Nat.succ.inj hlength)]

/-- No lexeme that a text starts with is longer than what is taken, and none of the same length is
of another kind. By cases of the lexeme: its first character tells which way the text is taken. -/
theorem IsLexeme.exceeds_leading {kind : Kind} {text behind rest : List Char} {c : Char}
    (h : IsLexeme kind text behind) (htext : text ++ behind = c :: rest) {afterVersion : Bool}
    (hdigit : ¬(afterVersion ∧ c.isDigit)) : Exceeds kind text (leading afterVersion c rest) := by
  cases h with
  | newline =>
    cases htext
    exact exceeds_ofKind (Nat.le_refl _) fun _ => rfl
  | keyword hkeyword =>
    have hall : ∀ entry ∈ Kind.keywords, startsWith isWordStart entry.1 ∧
        entry.1.tail.all isWordPart ∧
        (Kind.ofKeyword? entry.1).getD .identifier = entry.2 := by decide
    obtain ⟨hstart, hparts, hkind⟩ := hall _ hkeyword
    cases text with
    | nil => cases hstart
    | cons d more =>
      cases htext
      rw [leading_of_isWordStart hstart]
      dsimp only at hkind
      rw [← hkind]
      exact exceeds_word _ (List.all_eq_true.1 hparts) behind
  | @name d more _ hstart hparts hkeyword =>
    cases htext
    have hnone : Kind.ofKeyword? (c :: more) = none := by
      rw [Kind.ofKeyword?, Option.map_eq_none_iff, List.find?_eq_none]
      rintro ⟨text, kind⟩ hmem heq
      exact hkeyword kind (of_decide_eq_true heq ▸ hmem)
    rw [leading_of_isWordStart hstart]
    have hexceeds := exceeds_word c hparts behind
    rwa [hnone] at hexceeds
  | condition hstart =>
    obtain ⟨rfl, rfl⟩ := List.cons.inj htext
    show Exceeds _ _ (leading afterVersion 'c' ('-' :: behind))
    rw [Word.leading_condition afterVersion hstart]
    exact exceeds_ofKind (Nat.le_refl _) fun _ => rfl
  | @number whole fraction exponent _ hwhole hfraction hexponent =>
    have hahead : whole ++ (fraction ++ exponent) <+: c :: rest := ⟨behind, htext⟩
    have hstart : startsWith Char.isDigit (c :: rest) := by
      rw [← htext, List.append_assoc]
      exact hwhole.startsWith _
    have hc : c.isDigit := hstart
    have hfalse : afterVersion = false := by simpa [hc] using hdigit
    obtain ⟨more, hnumber, hmore⟩ := exists_number hc rest
    have hle := number_length_le hwhole hfraction hexponent hahead
    rw [← hmore] at hle
    rw [leading_of_isDigit hc, hfalse, hnumber]
    -- The three parts of the number are no longer than those that are taken, and if they are as
    -- long they are the same.
    refine exceeds_ofKind hle fun hlength => ?_
    rw [hmore] at hlength
    have hsame := (List.prefix_of_prefix_length_le hahead (number_isPrefix _)
      hlength.le).eq_of_length hlength
    refine if_congr ?_ rfl rfl
    rw [← forall_isDigit_iff hwhole hfraction hexponent, hsame,
      forall_isDigit_iff (isDigits_takeWhile hstart) (isFraction_fractionPart _)
        (isExponent_exponentPart _)]
  | string hbody =>
    rw [List.cons_append, List.append_assoc, List.singleton_append] at htext
    obtain ⟨rfl, rfl⟩ := List.cons.inj htext
    rw [opens_string, Lexeme.string, stringTail_of_body hbody]
    exact exceeds_ofKind (Nat.le_refl _) fun _ => rfl
  | @json body _ hbody =>
    rw [List.cons_append, List.cons_append] at htext
    obtain ⟨rfl, rfl⟩ := List.cons.inj htext
    rw [opens_json, Lexeme.json, jsonTail_of_body hbody]
    exact exceeds_ofKind (Nat.le_refl _) fun _ => rfl
  | operator hentry =>
    have hahead : text <+: c :: rest := ⟨behind, htext⟩
    have hlengths : ∀ entry ∈ Kind.operators, 0 < entry.1.length ∧ entry.1.length ≤ 2 := by decide
    obtain ⟨hpos, hshort⟩ := hlengths _ hentry
    obtain ⟨d, more, hd⟩ := List.exists_cons_of_length_pos hpos
    obtain rfl : d = c := by
      rw [show text = d :: more from hd] at htext
      exact (List.cons.inj htext).1
    -- A brace in front of a bar is an operator that loses against the literal it opens.
    by_cases hjson : d = '{' ∧ rest.head? = some '|'
    · obtain ⟨rfl, hbar⟩ := hjson
      obtain ⟨rest, rfl⟩ := List.head?_eq_some_iff.1 hbar
      rw [opens_json, Lexeme.json]
      refine ⟨_, _, rfl, fun hcomplete => ?_⟩
      have hne := List.length_pos_iff.2 (jsonTail_ne_nil hcomplete)
      simp only [Lexeme.text, List.length_cons]
      dsimp only at hshort
      omega
    · obtain ⟨longest, -, hsymbol, hlongest, hle, hkind⟩ := symbol_of_operator hentry hahead
      obtain ⟨first, tail, hfirst⟩ := List.exists_cons_of_length_pos (hpos.trans_le hle)
      rw [hfirst] at hle hkind
      rw [leading_of_operator hentry afterVersion hd hjson, hsymbol, hfirst]
      exact exceeds_ofKind hle hkind

/-! ## What is taken is a lexeme -/

/-- What is taken for a word is the mark of a condition, a keyword or a name. -/
theorem isLexeme_word {c : Char} (hc : isWordStart c) (rest : List Char) :
    ∃ kind more, word c rest = ofKind kind c more ∧
      IsLexeme kind (c :: more) (rest.drop more.length) := by
  rw [word]
  split
  · next hcondition =>
    obtain ⟨hc, hopens⟩ := Bool.and_eq_true_iff.1 hcondition
    obtain rfl := of_decide_eq_true hc
    unfold opensCondition at hopens
    split at hopens
    · next behind => exact ⟨_, _, rfl, .condition hopens⟩
    · cases hopens
  · refine ⟨_, _, rfl, ?_⟩
    -- A word in the table of keywords is one of them, and all others are names.
    cases hkeyword : Kind.ofKeyword? (c :: rest.takeWhile isWordPart) with
    | none =>
      refine .name hc (fun d hd => List.all_eq_true.1 List.all_takeWhile d hd) fun kind hmem => ?_
      rw [Kind.ofKeyword?, Option.map_eq_none_iff, List.find?_eq_none] at hkeyword
      exact hkeyword _ hmem (decide_eq_true rfl)
    | some kind =>
      obtain ⟨entry, hentry, rfl⟩ := Option.map_eq_some_iff.1 hkeyword
      have hword : entry.1 = c :: rest.takeWhile isWordPart := by
        simpa using List.find?_some hentry
      refine .keyword ?_
      rw [← hword]
      exact List.mem_of_find?_eq_some hentry

/-- What is taken for a number is one, whatever comes behind it. -/
theorem isLexeme_number {c : Char} (hc : c.isDigit) (rest : List Char) :
    ∃ kind more, number false c rest = ofKind kind c more ∧
      ∀ behind, IsLexeme kind (c :: more) behind := by
  have hstart : startsWith Char.isDigit (c :: rest) := hc
  obtain ⟨more, hnumber, hmore⟩ := exists_number hc rest
  refine ⟨_, more, hnumber, fun behind => ?_⟩
  rw [hmore]
  exact .number (isDigits_takeWhile hstart) (isFraction_fractionPart _)
    (isExponent_exponentPart _)

/-- What is taken for an operator is in the table, at the place where it was found. -/
theorem isLexeme_symbol {c : Char} {rest behind : List Char} {kind : Kind}
    (h : (symbol c rest).role = .token kind true) :
    IsLexeme kind (symbol c rest).text behind := by
  unfold symbol at h ⊢
  split
  · next spelling kind hfind =>
    rw [hfind] at h
    cases h
    have hahead : spelling <+: c :: rest := by
      simpa using List.find?_some hfind
    have hmem := List.mem_of_find?_eq_some hfind
    cases spelling with
    | nil =>
      have hne : ∀ entry ∈ Kind.operators, entry.1 ≠ [] := by decide
      exact absurd rfl (hne _ hmem)
    | cons d spelling =>
      obtain ⟨rfl, -⟩ := List.cons_prefix_cons.1 hahead
      exact .operator hmem
  · next hfind =>
    rw [hfind] at h
    cases h

/-- What is taken as a complete token is a lexeme. Digits behind the keyword of the version are a
number of their own. -/
theorem isLexeme_leading {kind : Kind} {afterVersion : Bool} {c : Char} {rest : List Char}
    (hrole : (leading afterVersion c rest).role = .token kind true)
    (hdigit : ¬(afterVersion ∧ c.isDigit)) :
    IsLexeme kind (leading afterVersion c rest).text
      (rest.drop (leading afterVersion c rest).more.length) := by
  unfold leading at hrole ⊢
  -- The cases are those of `leading`, in its order.
  by_cases hspace : isSpace c
  · rw [if_pos hspace] at hrole
    cases hrole
  rw [if_neg hspace] at hrole ⊢
  by_cases hcomment : c = '#'
  · rw [if_pos hcomment] at hrole
    cases hrole
  rw [if_neg hcomment] at hrole ⊢
  by_cases hnewline : c = '\n'
  · rw [if_pos hnewline] at hrole ⊢
    cases hrole
    rw [hnewline]
    exact .newline
  rw [if_neg hnewline] at hrole ⊢
  by_cases hc : c.isDigit
  · have hfalse : afterVersion = false := by simpa [hc] using hdigit
    rw [if_pos hc, hfalse] at hrole ⊢
    obtain ⟨kind', more, hnumber, hlexeme⟩ := isLexeme_number hc rest
    rw [hnumber] at hrole ⊢
    cases hrole
    exact hlexeme _
  rw [if_neg hc] at hrole ⊢
  by_cases hword : isWordStart c
  · rw [if_pos hword] at hrole ⊢
    obtain ⟨kind', more, heq, hlexeme⟩ := isLexeme_word hword rest
    rw [heq] at hrole ⊢
    cases hrole
    exact hlexeme
  rw [if_neg hword] at hrole ⊢
  by_cases hquote : c = '"'
  · rw [if_pos hquote] at hrole ⊢
    obtain ⟨rfl, hcomplete⟩ := Role.token.inj hrole
    obtain ⟨body, hbody, htext⟩ := exists_body_of_stringTail hcomplete
    have htext : (Lexeme.string rest).text = '"' :: (body ++ ['"']) := congrArg ('"' :: ·) htext
    rw [htext]
    exact .string hbody
  rw [if_neg hquote] at hrole ⊢
  by_cases hjson : c = '{' && rest.head? = some '|'
  · rw [if_pos hjson] at hrole ⊢
    obtain ⟨rfl, hcomplete⟩ := Role.token.inj hrole
    obtain ⟨body, hbody, htext⟩ := exists_body_of_jsonTail hcomplete
    have htext : (Lexeme.json rest.tail).text = '{' :: '|' :: (body ++ ['|', '}']) :=
      congrArg ('{' :: '|' :: ·) htext
    rw [htext]
    exact .json hbody
  · rw [if_neg hjson] at hrole ⊢
    exact isLexeme_symbol hrole

/-- The condition on digits can be told by the kind, too. -/
theorem isLexeme_of_role {kind : Kind} {afterVersion : Bool} {c : Char} {rest : List Char}
    (hrole : (leading afterVersion c rest).role = .token kind true)
    (hkind : kind ≠ .versionNumber) :
    IsLexeme kind (leading afterVersion c rest).text
      (rest.drop (leading afterVersion c rest).more.length) := by
  refine isLexeme_leading hrole fun hdigit => ?_
  rw [leading_of_isDigit hdigit.2, hdigit.1] at hrole
  cases hrole
  exact hkind rfl

/-- The lexemes of the kinds that are told by their delimiters. -/
theorem IsLexeme.delimited {kind : Kind} {text behind : List Char} (h : IsLexeme kind text behind)
    (hkind : kind = .newline ∨ kind = .string ∨ kind = .json) :
    (kind = .newline ∧ text = ['\n']) ∨
      (kind = .string ∧ ∃ body, IsStringBody body ∧ text = '"' :: (body ++ ['"'])) ∨
      (kind = .json ∧
        ∃ body, ¬['|', '}'] <:+: body ∧ text = '{' :: '|' :: (body ++ ['|', '}'])) := by
  cases h with
  | newline => exact .inl ⟨rfl, rfl⟩
  | string hbody => exact .inr (.inl ⟨rfl, _, hbody, rfl⟩)
  | json hbody => exact .inr (.inr ⟨rfl, _, hbody, rfl⟩)
  | keyword hentry =>
    have hall : ∀ entry ∈ Kind.keywords,
        ¬(entry.2 = .newline ∨ entry.2 = .string ∨ entry.2 = .json) := by
      decide
    exact absurd hkind (hall _ hentry)
  | operator hentry =>
    have hall : ∀ entry ∈ Kind.operators,
        ¬(entry.2 = .newline ∨ entry.2 = .string ∨ entry.2 = .json) := by
      decide
    exact absurd hkind (hall _ hentry)
  | number => split at hkind <;> simp at hkind
  | name | condition => simp at hkind

theorem IsLexeme.eq_newline {text behind : List Char} (h : IsLexeme .newline text behind) :
    text = ['\n'] := by
  rcases h.delimited (.inl rfl) with ⟨-, htext⟩ | ⟨hkind, -⟩ | ⟨hkind, -⟩
  · exact htext
  · cases hkind
  · cases hkind

theorem IsLexeme.exists_string_body {text behind : List Char} (h : IsLexeme .string text behind) :
    ∃ body, IsStringBody body ∧ text = '"' :: (body ++ ['"']) := by
  rcases h.delimited (.inr (.inl rfl)) with ⟨hkind, -⟩ | ⟨-, hbody⟩ | ⟨hkind, -⟩
  · cases hkind
  · exact hbody
  · cases hkind

theorem IsLexeme.exists_json_body {text behind : List Char} (h : IsLexeme .json text behind) :
    ∃ body, ¬['|', '}'] <:+: body ∧ text = '{' :: '|' :: (body ++ ['|', '}']) := by
  rcases h.delimited (.inr (.inr rfl)) with ⟨hkind, -⟩ | ⟨hkind, -⟩ | ⟨-, hbody⟩
  · cases hkind
  · cases hkind
  · exact hbody

/-- A kind that has one spelling has no other lexemes. -/
theorem IsLexeme.eq_spelling {kind : Kind} {text behind spelling : List Char}
    (h : IsLexeme kind text behind) (hkind : kind.spelling? = some spelling) : text = spelling := by
  cases h with
  | keyword hentry =>
    have hall : ∀ entry ∈ Kind.keywords, entry.2.spelling? = some entry.1 := by decide
    exact Option.some_inj.1 ((hall _ hentry).symm.trans hkind)
  | operator hentry =>
    have hall : ∀ entry ∈ Kind.operators, entry.2.spelling? = some entry.1 := by decide
    exact Option.some_inj.1 ((hall _ hentry).symm.trans hkind)
  | number => split at hkind <;> cases hkind
  | newline | name | condition | string | json => cases hkind

/-- A name starts as words do. -/
theorem IsLexeme.exists_isWordStart {kind : Kind} {text behind : List Char}
    (h : IsLexeme kind text behind) (hkind : kind = .identifier) :
    ∃ c more, text = c :: more ∧ isWordStart c := by
  cases h with
  | name hc => exact ⟨_, _, rfl, hc⟩
  | keyword hentry =>
    have hall : ∀ entry ∈ Kind.keywords, entry.2 ≠ .identifier := by decide
    exact absurd hkind (hall _ hentry)
  | operator hentry =>
    have hall : ∀ entry ∈ Kind.operators, entry.2 ≠ .identifier := by decide
    exact absurd hkind (hall _ hentry)
  | number => split at hkind <;> cases hkind
  | newline | condition | string | json => cases hkind

/-! ## Literals without an end -/

/-- A string without an end is one whose closing quote is missed. -/
theorem isCutOff_string_iff {rest : List Char} :
    IsCutOff .string ('"' :: rest) ↔ (stringTail rest).2 = false := by
  constructor
  · intro h
    obtain ⟨hnone⟩ := h
    rw [← Bool.not_eq_true]
    intro hcomplete
    obtain ⟨body, hbody, htext⟩ := exists_body_of_stringTail hcomplete
    obtain ⟨behind, hbehind⟩ := stringTail_isPrefix rest
    refine hnone body behind hbody ?_
    rw [← hbehind, htext, List.append_assoc, List.singleton_append]
  · intro h
    refine .string fun body behind hbody hrest => ?_
    rw [hrest, stringTail_of_body hbody] at h
    cases h

/-- Looking for the closing delimiter finds it if it is anywhere in the text. -/
theorem infix_iff_jsonTail {rest : List Char} : ['|', '}'] <:+: rest ↔ (jsonTail rest).2 := by
  constructor
  · intro h
    fun_induction jsonTail rest with
    | case1 => exact absurd h (by decide)
    | case2 => rfl
    | case3 c rest hclosing text complete heq ih =>
      rw [heq] at ih
      rcases List.infix_cons_iff.1 h with hahead | hinfix
      · obtain ⟨rfl, later, rfl⟩ := List.cons_prefix_cons.1 hahead
        exact absurd rfl (hclosing later rfl)
      · exact ih hinfix
  · intro h
    obtain ⟨body, -, htext⟩ := exists_body_of_jsonTail h
    obtain ⟨behind, hbehind⟩ := jsonTail_isPrefix rest
    exact ⟨body, behind, by rw [← htext, hbehind]⟩

/-- A JSON literal without an end is one whose closing delimiter is missed. -/
theorem isCutOff_json_iff {rest : List Char} :
    IsCutOff .json ('{' :: '|' :: rest) ↔ (jsonTail rest).2 = false := by
  rw [← Bool.not_eq_true, ← infix_iff_jsonTail]
  constructor
  · intro h
    cases h with
    | json hnone => exact hnone
  · exact .json

/-- A literal without an end takes all that is left of the text. -/
theorem leading_of_isCutOff {kind : Kind} {c : Char} {rest : List Char}
    (h : IsCutOff kind (c :: rest)) (afterVersion : Bool) :
    leading afterVersion c rest = { role := .token kind false, first := c, more := rest } := by
  generalize htext : c :: rest = text at h
  cases h with
  | string hnone =>
    obtain ⟨rfl, rfl⟩ := List.cons.inj htext
    have hincomplete := isCutOff_string_iff.1 (.string hnone)
    have htail : stringTail rest = (rest, false) :=
      Prod.ext (stringTail_of_incomplete hincomplete) hincomplete
    rw [opens_string, Lexeme.string, htail]
  | @json behind hnone =>
    obtain ⟨rfl, rfl⟩ := List.cons.inj htext
    have hincomplete := isCutOff_json_iff.1 (.json hnone)
    have htail : jsonTail behind = (behind, false) :=
      Prod.ext (jsonTail_of_incomplete hincomplete) hincomplete
    rw [opens_json, Lexeme.json, htail]

/-- Nothing but such a literal is taken as an incomplete token. -/
theorem isCutOff_of_leading {kind : Kind} {afterVersion : Bool} {c : Char} {rest : List Char}
    (hrole : (leading afterVersion c rest).role = .token kind false) :
    IsCutOff kind (c :: rest) := by
  -- The cases are those of `leading`, in its order.
  unfold leading at hrole
  split at hrole
  · cases hrole
  split at hrole
  · cases hrole
  split at hrole
  · cases hrole
  split at hrole
  · unfold number at hrole
    split at hrole <;> cases hrole
  split at hrole
  · unfold word at hrole
    split at hrole <;> cases hrole
  split at hrole
  · next hquote =>
    obtain ⟨rfl, hincomplete⟩ := Role.token.inj hrole
    rw [hquote]
    exact isCutOff_string_iff.2 hincomplete
  split at hrole
  · next hjson =>
    obtain ⟨hbrace, hbar⟩ := Bool.and_eq_true_iff.1 hjson
    obtain ⟨rest, rfl⟩ := List.head?_eq_some_iff.1 (of_decide_eq_true hbar)
    obtain ⟨rfl, hincomplete⟩ := Role.token.inj hrole
    rw [of_decide_eq_true hbrace]
    exact isCutOff_json_iff.2 hincomplete
  · unfold symbol at hrole
    split at hrole <;> cases hrole

end Cqasm.Lexical
