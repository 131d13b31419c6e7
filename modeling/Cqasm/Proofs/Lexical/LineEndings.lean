import Cqasm.Proofs.Lexical.Munch

/-!
# Lines that end in a carriage return and a newline

A text may be given a carriage return in front of every newline (`withReturns`). A carriage return
is a blank and a delimiter like the newline behind it, so no piece in front of it changes but a
comment, which takes it along. As long as no literal runs over the end of a line, the text is cut
into the same tokens, and what stands on a line stands at the same place of it: only the newlines
themselves are one column further on (`Item.ofLexemes_withReturns`).
-/

set_option autoImplicit false

namespace Cqasm

/-- The text with a carriage return in front of every newline. -/
def withReturns (text : List Char) : List Char :=
  text.flatMap fun c => if c = '\n' then ['\r', '\n'] else [c]

variable {c : Char} {text rest line behind : List Char}

theorem withReturns_newline (rest : List Char) :
    withReturns ('\n' :: rest) = '\r' :: '\n' :: withReturns rest := rfl

theorem withReturns_cons (hc : c ≠ '\n') (rest : List Char) :
    withReturns (c :: rest) = c :: withReturns rest := by
  rw [withReturns, List.flatMap_cons, if_neg hc]
  rfl

theorem withReturns_append (left right : List Char) :
    withReturns (left ++ right) = withReturns left ++ withReturns right :=
  List.flatMap_append

/-- Nothing happens within a line. -/
theorem withReturns_of_notMem (h : '\n' ∉ text) : withReturns text = text := by
  induction text with
  | nil => rfl
  | cons c text ih =>
    rw [List.mem_cons, not_or] at h
    rw [withReturns_cons (Ne.symm h.1), ih h.2]

theorem withReturns_line (h : '\n' ∉ line) (rest : List Char) :
    withReturns (line ++ rest) = line ++ withReturns rest := by
  rw [withReturns_append, withReturns_of_notMem h]

namespace Lexeme

/-! ## Pieces -/

/-- Nothing behind a delimiter has a say in what `f` makes of a text. -/
def StopsAtDelimiters {β : Type} (f : List Char → β) : Prop :=
  ∀ ⦃d⦄, isDelimiter d → ∀ rest behind, f (rest ++ d :: behind) = f rest

theorem StopsAtDelimiters.withReturns_eq {β : Type} {f : List Char → β} (hf : StopsAtDelimiters f)
    (rest : List Char) : f (withReturns rest) = f rest := by
  by_cases h : '\n' ∈ rest
  · obtain ⟨line, behind, rfl, hline⟩ := List.eq_append_cons_of_mem h
    rw [withReturns_line hline, withReturns_newline, hf (by decide), hf (by decide)]
  · rw [withReturns_of_notMem h]

/-- A piece that delimiters end lies in a line. -/
theorem StopsAtDelimiters.notMem {f : List Char → Lexeme} (hf : StopsAtDelimiters f)
    (htaken : ∀ rest, (f rest).more <+: rest) (rest : List Char) : '\n' ∉ (f rest).more := by
  by_cases h : '\n' ∈ rest
  · obtain ⟨line, behind, rfl, hline⟩ := List.eq_append_cons_of_mem h
    rw [hf (by decide)]
    exact fun hmem => hline ((htaken line).subset hmem)
  · exact fun hmem => h ((htaken rest).subset hmem)

/-- A string literal within a line has no newline in it to change. -/
theorem stringTail_withReturns (h : '\n' ∉ (stringTail rest).1) :
    stringTail (withReturns rest) = stringTail rest := by
  cases hcomplete : (stringTail rest).2 with
  | false =>
    rw [Lexeme.stringTail_of_incomplete hcomplete] at h
    rw [withReturns_of_notMem h]
  | true =>
    obtain ⟨body, hbody, htext⟩ := Lexical.exists_body_of_stringTail hcomplete
    obtain ⟨behind, hbehind⟩ := stringTail_isPrefix rest
    have hrest : rest = body ++ '"' :: behind := by
      rw [← hbehind, htext, List.append_assoc, List.singleton_append]
    have hline : '\n' ∉ body := fun hmem => h (htext ▸ List.mem_append_left _ hmem)
    rw [hrest, withReturns_line hline, withReturns_cons (by decide),
      Lexical.stringTail_of_body hbody, Lexical.stringTail_of_body hbody]

/-- Nor has a JSON literal. -/
theorem jsonTail_withReturns (h : '\n' ∉ (jsonTail rest).1) :
    jsonTail (withReturns rest) = jsonTail rest := by
  cases hcomplete : (jsonTail rest).2 with
  | false =>
    rw [Lexeme.jsonTail_of_incomplete hcomplete] at h
    rw [withReturns_of_notMem h]
  | true =>
    obtain ⟨body, hbody, htext⟩ := Lexical.exists_body_of_jsonTail hcomplete
    obtain ⟨behind, hbehind⟩ := jsonTail_isPrefix rest
    rw [htext] at h hbehind
    rw [← hbehind, withReturns_line h, Lexical.jsonTail_of_body hbody,
      Lexical.jsonTail_of_body hbody]

/-- A piece that starts in a line and is no comment is what it was, and lies in the line. -/
theorem leading_withReturns {afterVersion : Bool} (hc : c ≠ '\n') (hcomment : c ≠ '#')
    (hliteral : ∀ kind complete, (leading afterVersion c rest).role = .token kind complete →
      kind = .string ∨ kind = .json → '\n' ∉ (leading afterVersion c rest).more) :
    leading afterVersion c (withReturns rest) = leading afterVersion c rest ∧
      '\n' ∉ (leading afterVersion c rest).more := by
  have hnumber : StopsAtDelimiters (number afterVersion c) :=
    fun _ hd rest _ => number_append hd afterVersion c rest
  have hword : StopsAtDelimiters (word c) := fun _ hd rest _ => word_append hd c rest
  have hsymbol : StopsAtDelimiters (symbol c) := fun _ hd rest _ => symbol_append hd c rest
  have hhead : (withReturns rest).head? = some '|' ↔ rest.head? = some '|' := by
    cases rest with
    | nil => rfl
    | cons d rest =>
      by_cases hd : d = '\n'
      · simp [hd, withReturns_newline]
      · rw [withReturns_cons hd]
        rfl
  unfold leading at hliteral ⊢
  simp only [hhead]
  -- The cases are those of `leading`, in its order.
  by_cases hspace : isSpace c
  · rw [if_pos hspace, if_pos hspace]
    exact ⟨rfl, List.not_mem_nil⟩
  rw [if_neg hspace, if_neg hcomment, if_neg hc] at hliteral ⊢
  rw [if_neg hspace, if_neg hcomment, if_neg hc]
  by_cases hdigit : c.isDigit
  · rw [if_pos hdigit, if_pos hdigit]
    exact ⟨hnumber.withReturns_eq rest, hnumber.notMem (number_isPrefix afterVersion c) rest⟩
  rw [if_neg hdigit] at hliteral ⊢
  rw [if_neg hdigit]
  by_cases hstart : isWordStart c
  · rw [if_pos hstart, if_pos hstart]
    exact ⟨hword.withReturns_eq rest, hword.notMem (word_isPrefix c) rest⟩
  rw [if_neg hstart] at hliteral ⊢
  rw [if_neg hstart]
  by_cases hquote : c = '"'
  · rw [if_pos hquote] at hliteral ⊢
    rw [if_pos hquote]
    have hmore : '\n' ∉ (stringTail rest).1 := hliteral _ _ rfl (.inl rfl)
    rw [string, string, stringTail_withReturns hmore]
    exact ⟨rfl, hmore⟩
  rw [if_neg hquote] at hliteral ⊢
  rw [if_neg hquote]
  by_cases hjson : c = '{' && rest.head? = some '|'
  · rw [if_pos hjson] at hliteral ⊢
    rw [if_pos hjson]
    obtain ⟨rest, rfl⟩ := List.head?_eq_some_iff.1 (of_decide_eq_true
      (Bool.and_eq_true_iff.1 hjson).2)
    have hmore : '\n' ∉ '|' :: (jsonTail rest).1 := hliteral _ _ rfl (.inr rfl)
    rw [withReturns_cons (by decide), List.tail_cons, List.tail_cons, json, json,
      jsonTail_withReturns fun hmem => hmore (List.mem_cons_of_mem _ hmem)]
    exact ⟨rfl, hmore⟩
  · rw [if_neg hjson, if_neg hjson]
    exact ⟨hsymbol.withReturns_eq rest, hsymbol.notMem (symbol_isPrefix c) rest⟩

/-- Only a newline makes the token of one. -/
theorem role_leading_ne_newline (hc : c ≠ '\n') (afterVersion complete : Bool)
    (rest : List Char) : (leading afterVersion c rest).role ≠ .token .newline complete := by
  intro hrole
  cases complete with
  | false => cases Lexical.isCutOff_of_leading hrole
  | true =>
    have htext := (Lexical.isLexeme_of_role hrole (by decide)).eq_newline
    rw [text, first_leading] at htext
    exact hc (List.cons.inj htext).1

end Lexeme

/-! ## Places -/

/-- The place in the text with carriage returns: they count as characters, one for each line
before. -/
def Position.returned (place : Position) : Position :=
  { place with offset := place.offset + (place.line - 1) }

/-- The place of a newline, behind the carriage return in front of it. -/
def Position.broken (place : Position) : Position :=
  place.returned.next '\r'

variable {place : Position}

/-- Within a line, the places keep in step. -/
theorem Position.next_returned (hc : c ≠ '\n') :
    (place.next c).returned = place.returned.next c := by
  unfold next returned
  rw [if_neg hc, if_neg hc]
  congr 1
  exact Nat.add_right_comm ..

/-- A newline leads to the same place from either side. -/
theorem Position.next_broken (hplace : 0 < place.line) :
    place.broken.next '\n' = (place.next '\n').returned := by
  unfold broken returned next
  simp
  omega

theorem Position.after_returned (h : '\n' ∉ line) :
    (place.after line).returned = place.returned.after line := by
  induction line generalizing place with
  | nil => rfl
  | cons c line ih =>
    rw [List.mem_cons, not_or] at h
    rw [after_cons, after_cons, ih h.2, next_returned (Ne.symm h.1)]

theorem Position.line_pos_next (hplace : 0 < place.line) (c : Char) : 0 < (place.next c).line := by
  unfold next
  split
  · exact Nat.succ_pos _
  · exact hplace

theorem Position.line_pos_after (hplace : 0 < place.line) (text : List Char) :
    0 < (place.after text).line := by
  induction text generalizing place with
  | nil => exact hplace
  | cons c text ih => exact ih (line_pos_next hplace c)

/-- The token in the text with carriage returns. -/
def Token.returned (token : Token) : Token :=
  if token.kind = .newline then { token with start := token.start.broken }
  else { token with start := token.start.returned }

/-- The item in the text with carriage returns. -/
def Item.returned : Item → Item
  | token t => token t.returned
  | stray c place => stray c place.returned

/-! ## Items -/

namespace Item

open Lexeme

theorem ofLexeme?_returned {piece : Lexeme}
    (h : ∀ complete, piece.role ≠ .token .newline complete) :
    ofLexeme? place.returned piece = (ofLexeme? place piece).map returned := by
  unfold ofLexeme?
  split
  · rfl
  · rfl
  · rfl
  · next kind complete hrole =>
    have hkind : kind ≠ .newline := by
      rintro rfl
      exact h complete hrole
    rw [Option.map_some, returned, Token.returned, if_neg hkind]

/-- A line break is the newline that it was, behind a blank. -/
theorem ofLexemes_break (afterVersion : Bool) (behind : List Char) :
    ofLexemes place.returned (cutFrom afterVersion 0 (withReturns ('\n' :: behind))) =
      ofLexemes place.broken (cutFrom afterVersion 0 ('\n' :: withReturns behind)) := by
  rw [withReturns_newline, cutFrom_cons, leading_of_isSpace (by decide)]
  rfl

/-- The carriage return is a blank, and the newline comes a column later. -/
theorem ofLexemes_newline (hplace : 0 < place.line) (afterVersion : Bool) (rest : List Char) :
    ofLexemes place.returned (cutFrom afterVersion 0 (withReturns ('\n' :: rest))) =
      .token (.newline place.broken) ::
        ofLexemes (place.next '\n').returned (cutFrom false 0 (withReturns rest)) := by
  rw [ofLexemes_break, cutFrom_cons, ← Position.next_broken hplace]
  rfl

/-- A comment takes the carriage return at its end along. -/
theorem ofLexemes_comment (afterVersion : Bool) (rest : List Char) :
    ofLexemes place.returned (cutFrom afterVersion 0 (withReturns ('#' :: rest))) =
      ofLexemes (place.after (leading afterVersion '#' rest).text).returned
        (cutFrom afterVersion 0
          (withReturns (rest.drop (leading afterVersion '#' rest).more.length))) := by
  rw [withReturns_cons (by decide), cutFrom_cons, leading_hash, leading_hash]
  -- The carriage return in front of the newline becomes part of the comment, and comments leave
  -- nothing.
  by_cases h : '\n' ∈ rest
  · obtain ⟨line, behind, rfl, hline⟩ := List.eq_append_cons_of_mem h
    have hall : ∀ c ∈ line, decide (c ≠ '\n') := fun c hc =>
      decide_eq_true fun heq => hline (heq ▸ hc)
    have hstop (line : List Char) (hall : ∀ c ∈ line, decide (c ≠ '\n')) (behind : List Char) :
        (line ++ '\n' :: behind).takeWhile (· ≠ '\n') = line := by
      rw [List.takeWhile_append_of_pos hall, List.takeWhile_cons_of_neg (by decide),
        List.append_nil]
    have hreturn : ∀ c ∈ line ++ ['\r'], decide (c ≠ '\n') := by
      intro c hc
      rcases List.mem_append.1 hc with hc | hc
      · exact hall c hc
      · rw [List.mem_singleton.1 hc]
        decide
    have hhash : '\n' ∉ '#' :: line := by
      rw [List.mem_cons, not_or]
      exact ⟨by decide, hline⟩
    rw [withReturns_line hline, withReturns_newline, List.append_cons, hstop _ hreturn,
      hstop _ hall, List.drop_left, List.drop_left, ofLexemes_break]
    show ofLexemes (place.returned.after ('#' :: line ++ ['\r'])) _ = _
    rw [Position.after_append, ← Position.after_returned hhash]
    rfl
  · have hall : ∀ c ∈ rest, decide (c ≠ '\n') := fun c hc =>
      decide_eq_true fun heq => h (heq ▸ hc)
    have hline : rest.takeWhile (· ≠ '\n') = rest := List.takeWhile_eq_self_iff.2 hall
    rw [withReturns_of_notMem h, hline, List.drop_length]
    rfl

/-- That no literal runs over the end of a line. -/
def LiteralsInLines (items : List Item) : Prop :=
  ∀ token, .token token ∈ items → token.kind = .string ∨ token.kind = .json → '\n' ∉ token.text

/-- The same items stand in the text with carriage returns. -/
theorem ofLexemes_withReturns {afterVersion : Bool} (hplace : 0 < place.line)
    (h : LiteralsInLines (ofLexemes place (cutFrom afterVersion 0 text))) :
    ofLexemes place.returned (cutFrom afterVersion 0 (withReturns text)) =
      (ofLexemes place (cutFrom afterVersion 0 text)).map returned := by
  -- The induction is on the pieces of the text as it was.
  generalize hpieces : cutFrom afterVersion 0 text = pieces at h ⊢
  induction pieces generalizing text place afterVersion with
  | nil =>
    cases text with
    | nil => rfl
    | cons => rw [cutFrom_cons] at hpieces; cases hpieces
  | cons piece pieces ih =>
    cases text with
    | nil => cases hpieces
    | cons c rest =>
      rw [cutFrom_cons] at hpieces
      obtain ⟨hpiece, hpieces⟩ := List.cons.inj hpieces
      rw [hpiece] at hpieces
      have hrest := ih (Position.line_pos_after hplace piece.text) hpieces
        fun token htoken => h token (List.mem_append_right _ htoken)
      rw [ofLexemes, List.map_append, ← hrest]
      by_cases hnewline : c = '\n'
      · subst hnewline
        rw [ofLexemes_newline hplace, ← hpiece]
        rfl
      by_cases hcomment : c = '#'
      · subst hcomment
        rw [ofLexemes_comment, hpiece, ← hpiece]
        rfl
      have hliteral : ∀ kind complete, piece.role = .token kind complete →
          kind = .string ∨ kind = .json → '\n' ∉ piece.more := by
        intro kind complete hrole hkind
        have hmem : .token ⟨kind, piece.text, place, complete⟩ ∈
            ofLexemes place (piece :: pieces) := by
          rw [ofLexemes, ofLexeme?, hrole]
          exact List.mem_cons_self
        exact fun hmore => h _ hmem hkind (List.mem_cons_of_mem _ hmore)
      rw [← hpiece] at hliteral
      obtain ⟨hsame, hmore⟩ := leading_withReturns hnewline hcomment hliteral
      have hrole (complete : Bool) := role_leading_ne_newline hnewline afterVersion complete rest
      obtain ⟨later, hlater⟩ := more_isPrefix_leading afterVersion c rest
      have hfirst := first_leading afterVersion c rest
      rw [hpiece] at hsame hmore hrole hlater hfirst
      have hline : '\n' ∉ piece.text := by
        rw [Lexeme.text, hfirst, List.mem_cons, not_or]
        exact ⟨Ne.symm hnewline, hmore⟩
      rw [withReturns_cons hnewline, cutFrom_cons, hsame, ofLexemes, ofLexeme?_returned hrole,
        Option.toList_map, Position.after_returned hline, ← hlater, withReturns_line hmore,
        List.drop_left, List.drop_left]

end Item

/-! ## Streams -/

/-- The two texts end at places that correspond. -/
theorem Position.after_withReturns (hplace : 0 < place.line) (text : List Char) :
    place.returned.after (withReturns text) = (place.after text).returned := by
  induction text generalizing place with
  | nil => rfl
  | cons c text ih =>
    by_cases hc : c = '\n'
    · rw [hc, withReturns_newline, after_cons, ← broken, after_cons, next_broken hplace,
        ih (line_pos_next hplace _), after_cons]
    · rw [withReturns_cons hc, after_cons, ← next_returned hc, ih (line_pos_next hplace c),
        after_cons]

namespace TokenStream

theorem ofText_withReturns (h : Item.LiteralsInLines (ofText text).items) :
    ofText (withReturns text) =
      { items := (ofText text).items.map .returned, last := (ofText text).last.returned } := by
  have hstart : 0 < Position.start.line := Nat.one_pos
  exact congrArg₂ TokenStream.mk (Item.ofLexemes_withReturns hstart h)
    (congrArg Token.atEnd (Position.after_withReturns hstart text))

/-- The tokens are the same ones, later by as many characters as there were newlines before. -/
theorem tokens_withReturns (h : Item.LiteralsInLines (ofText text).items) :
    (ofText (withReturns text)).tokens = (ofText text).tokens.map .returned := by
  have hitem : Item.token? ∘ Item.returned = fun item => item.token?.map Token.returned := by
    funext item
    cases item <;> rfl
  rw [ofText_withReturns h, tokens, tokens, List.filterMap_map, List.map_filterMap, hitem]

theorem diagnostics_withReturns (h : Item.LiteralsInLines (ofText text).items)
    (hclean : (ofText text).diagnostics = []) : (ofText (withReturns text)).diagnostics = [] := by
  rw [ofText_withReturns h, diagnostics, List.flatMap_map]
  rw [diagnostics, List.flatMap_eq_nil_iff] at hclean
  refine List.flatMap_eq_nil_iff.2 fun item hitem => ?_
  have hnone := hclean item hitem
  cases item with
  | stray => cases hnone
  | token t =>
    have hcomplete : t.returned.complete = t.complete := by
      unfold Token.returned
      split <;> rfl
    rw [Item.returned, Item.diagnostics, Diagnostic.ofToken, hcomplete]
    rw [Item.diagnostics, Diagnostic.ofToken] at hnone
    split
    · rfl
    · next hincomplete =>
      rw [if_neg hincomplete] at hnone
      cases hnone

end TokenStream

end Cqasm
