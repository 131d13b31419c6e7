import Cqasm.Proofs.Lexical.Places
import Cqasm.Proofs.Machine.Consuming

/-!
# What the scanner does

In front of every text the scanner does what `Lexeme.leading` says about its first piece, and so a
call of `nextToken` is one step of the stream of tokens (`ends_nextToken`). Actions that make a
token of what they have consumed are described by `Delivers`, those that may meet a stray character
instead by `Scans`.
-/

set_option autoImplicit false

namespace Cqasm.Machine.Scanner

open Machine.Action

variable {S α β γ : Type} {host : Host S}

/-! ## Tokens -/

/-- Some diagnostic is not taken behind the ones that have been. -/
def IsRefused (host : Host S) (t : Scanner S) : Prop :=
  ∃ diagnostic, host.takes t.reports diagnostic = false

/-- How a scanner is left because a diagnostic is not taken: in front of some text, for all that. -/
structure Throws (host : Host S) (s : Scanner S) (interrupt : Interrupt) (t : Scanner S) :
    Prop where
  interrupt_eq : interrupt = .refused
  isRefused : IsRefused host t
  holds : ∃ rest, host.source.Holds t.input rest
  disposed : t.disposed = s.disposed

/-- Of the scanner that started, a refusal only remembers whether it was disposed of. -/
theorem Throws.of_disposed {s s' t : Scanner S} {interrupt : Interrupt}
    (h : Throws host s interrupt t) (hdisposed : s.disposed = s'.disposed) :
    Throws host s' interrupt t :=
  { h with disposed := h.disposed.trans hdisposed }

/-- The action makes a token of a text that has been consumed, and reports what is wrong with it. -/
def Emits (host : Host S) (m : Action (Scanner S) Token) (kind : Kind) (text : List Char)
    (complete : Bool) : Prop :=
  ∀ s, Ends m s
    (fun token t =>
      token = { kind, text, start := s.tokenStart, complete } ∧
        t = { s with
          expectVersionNumber := decide (kind = .version)
          reports := s.reports ++ Diagnostic.ofToken token })
    fun interrupt t => interrupt = .refused ∧ t = s ∧ IsRefused host s

/-- In front of `text ++ rest` the action consumes `text` and makes a token of it. -/
def Delivers (host : Host S) (m : Action (Scanner S) Token) (text rest : List Char) (kind : Kind)
    (complete : Bool) : Prop :=
  ∀ ⦃s place⦄, Stands host s place (text ++ rest) →
    Ends m s
      (fun token t =>
        token = { kind, text, start := s.tokenStart, complete } ∧
          Stands host t (place.after text) rest ∧ t.disposed = s.disposed ∧
          t.expectVersionNumber = decide (kind = .version) ∧
          t.reports = s.reports ++ Diagnostic.ofToken token)
      (Throws host s)

section

variable {m : Action (Scanner S) α} {f : α → Action (Scanner S) Token} {text text' rest : List Char}
  {value : α} {kind : Kind} {complete : Bool}

/-- Reading a text and then emitting a token delivers it. -/
theorem Reads.deliver (h : Reads host m text rest value)
    (h' : Emits host (f value) kind text complete) :
    Delivers host (m >>= f) text rest kind complete := by
  intro s place hs
  rw [ends_bind]
  refine (h hs).mono (fun v t ⟨hv, ht, hkeeps⟩ => ?_) fun _ _ => False.elim
  subst hv
  refine (h' t).mono (fun token u ⟨htoken, hu⟩ => ?_) fun interrupt u ⟨hinterrupt, hu, hnot⟩ => ?_
  · subst htoken hu
    exact ⟨by rw [hkeeps.tokenStart], ⟨ht.holds, ht.here_eq⟩, hkeeps.disposed, rfl,
      by rw [hkeeps.reports]⟩
  · subst hu
    exact ⟨hinterrupt, hnot, ⟨rest, ht.holds⟩, hkeeps.disposed⟩

end

/-- A token behind anything but the keyword of the version forgets that there was one. -/
theorem emits_emit {kind : Kind} (hkind : kind ≠ .version) (text : List Char) :
    Emits host (emit kind text true) kind text true := by
  intro s
  refine ⟨rfl, ?_⟩
  simp [hkind, Diagnostic.ofToken]

/-- A literal without an end is reported before its token is emitted. -/
theorem emits_emitLiteral {kind : Kind} (hkind : kind ≠ .version) (text : List Char)
    (complete : Bool) : Emits host (emitLiteral host kind text complete) kind text complete := by
  intro s
  cases complete with
  | true => exact emits_emit hkind text s
  | false =>
    by_cases htakes : host.takes s.reports
        (.unterminated { kind, text, start := s.tokenStart, complete := false })
    · simp [emitLiteral, report, emit, htakes, hkind, Diagnostic.ofToken]
    · simp only [emitLiteral, report, Bool.not_false, if_true, ends_bind, ends_get, htakes]
      exact ⟨rfl, rfl, _, by simpa using htakes⟩

/-! ### Numbers -/

theorem drop_eq_of_append {text first behind : List Char} (h : text = first ++ behind) :
    text.drop first.length = behind := by
  rw [h, List.drop_left]

/-- Digits, fraction and exponent, as they are found one after the other. -/
theorem exists_delivers_scanNumber (host : Host S) {c : Char} (hc : c.isDigit) (rest : List Char) :
    ∃ behind, rest = (Lexeme.numberTail rest).1 ++ behind ∧
      Delivers host (scanNumber host) (c :: (Lexeme.numberTail rest).1) behind
        (if (Lexeme.numberTail rest).2 then .float else .integer) true := by
  have hsplit := List.takeWhile_append_dropWhile (p := Char.isDigit) (l := rest)
  obtain ⟨middle, hfraction, hreadsFraction⟩ :=
    exists_reads_readFraction host (rest.dropWhile Char.isDigit)
  obtain ⟨behind, hexponent, hreadsExponent⟩ := exists_reads_readExponent host middle
  have hwhole : Reads host _ _ _ _ := reads_takeWhile Char.isDigit (c :: rest)
  rw [List.takeWhile_cons_of_pos hc, List.dropWhile_cons_of_pos hc] at hwhole
  simp only [Lexeme.numberTail, drop_eq_of_append hsplit.symm, drop_eq_of_append hfraction]
  generalize hfractionPart : Lexeme.fractionPart (rest.dropWhile Char.isDigit) = fraction at *
  generalize hexponentPart : Lexeme.exponentPart middle = exponent at *
  generalize rest.takeWhile Char.isDigit = whole at *
  rw [hfraction, hexponent, ← List.append_assoc] at hwhole
  rw [hexponent] at hreadsFraction
  refine ⟨behind, ?_, ?_⟩
  · rw [← hsplit, hfraction, hexponent, List.append_assoc, List.append_assoc]
  have hreads : Reads host (readNumber host) (c :: whole ++ (fraction ++ exponent)) behind
      (c :: whole ++ fraction ++ exponent, !(fraction.isEmpty && exponent.isEmpty)) := by
    refine hwhole.bind (hreadsFraction.bind ?_)
    exact hreadsExponent.yield (reads_pure _)
  simp only [List.cons_append, List.append_assoc] at hreads ⊢
  refine hreads.deliver ?_
  cases fraction.isEmpty && exponent.isEmpty
  · exact emits_emit (by decide) _
  · exact emits_emit (by decide) _

/-! ### Words -/

/-- Whether the text makes a lone `c` in front of it the mark of a condition. -/
theorem opensCondition_eq (text : List Char) :
    (decide (text[0]? = some '-') && text[1]?.any Lexeme.isWordStart) =
      Lexeme.opensCondition text := by
  rcases text with - | ⟨c, - | ⟨d, rest⟩⟩
  · rfl
  · by_cases h : c = '-'
    · subst h
      rfl
    · simp [h, Lexeme.opensCondition]
  · by_cases h : c = '-'
    · subst h
      rfl
    · simp [h, Lexeme.opensCondition]

/-- A condition's mark goes on with a minus sign. -/
theorem exists_of_opensCondition {text : List Char} (h : Lexeme.opensCondition text) :
    ∃ rest, text = '-' :: rest := by
  unfold Lexeme.opensCondition at h
  split at h
  · exact ⟨_, rfl⟩
  · cases h

/-- Behind a keyword of the version a number of a version is expected, and behind no other word. -/
theorem emits_word (host : Host S) (text : List Char) :
    Emits host
      (do
        let token ← emit ((Kind.ofKeyword? text).getD .identifier) text true
        modify ({ · with expectVersionNumber := Kind.ofKeyword? text = some .version })
        return token)
      ((Kind.ofKeyword? text).getD .identifier) text true := by
  intro s
  have hflag : decide (Kind.ofKeyword? text = some .version) =
      decide ((Kind.ofKeyword? text).getD .identifier = .version) := by
    cases Kind.ofKeyword? text <;> simp
  simp [emit, Diagnostic.ofToken, hflag]

/-- The rest of a word is as long as it can be, unless the word is the mark of a condition. -/
theorem exists_delivers_scanWord (host : Host S) {c : Char} (hc : Lexeme.isWordStart c)
    (rest : List Char) :
    ∃ kind more behind, Lexeme.word c rest = ⟨.token kind true, c, more⟩ ∧
      rest = more ++ behind ∧ Delivers host (scanWord host) (c :: more) behind kind true := by
  have hpart : Lexeme.isWordPart c := by simp [Lexeme.isWordPart, hc]
  have hword : Reads host _ _ _ _ := reads_takeWhile Lexeme.isWordPart (c :: rest)
  rw [List.takeWhile_cons_of_pos hpart, List.dropWhile_cons_of_pos hpart] at hword
  by_cases hmark : (c = 'c' && Lexeme.opensCondition rest) = true
  · obtain ⟨rfl, hopens⟩ : c = 'c' ∧ Lexeme.opensCondition rest := by simpa using hmark
    obtain ⟨behind, rfl⟩ := exists_of_opensCondition hopens
    refine ⟨.conditionPrefix, ['-'], behind, if_pos hmark, rfl, ?_⟩
    have hreads : Reads host (readWord host) (['c'] ++ ['-']) behind (['c'] ++ ['-'], true) := by
      refine Reads.bind hword ((reads_ahead 0 _).look ((reads_isAhead _ 1 _).look ?_))
      rw [Bool.and_assoc, opensCondition_eq, if_pos (by simpa using ⟨by decide, hopens⟩)]
      exact (reads_advance '-' behind).yield (reads_pure _)
    exact hreads.deliver (emits_emit (by decide) _)
  · refine ⟨_, rest.takeWhile Lexeme.isWordPart, rest.dropWhile Lexeme.isWordPart,
      if_neg hmark, List.takeWhile_append_dropWhile.symm, ?_⟩
    generalize hmore : rest.takeWhile Lexeme.isWordPart = more at *
    generalize hbehind : rest.dropWhile Lexeme.isWordPart = behind at *
    have hreads : Reads host (readWord host) (c :: more) behind (c :: more, false) := by
      refine hword.yield ((reads_ahead 0 _).look ((reads_isAhead _ 1 _).look ?_))
      rw [Bool.and_assoc, opensCondition_eq, if_neg]
      · exact reads_pure _
      · rw [List.nil_append, Bool.and_eq_true, decide_eq_true_eq]
        rintro ⟨hc, hopens⟩
        obtain ⟨rfl, rfl⟩ := List.cons.inj hc
        have hrest : rest = behind := by
          rw [← List.takeWhile_append_dropWhile (p := Lexeme.isWordPart) (l := rest), hmore,
            hbehind, List.nil_append]
        rw [hrest] at hmark
        exact hmark (by simp [hopens])
    exact hreads.deliver (emits_word host _)

/-! ### Literals -/

/-- Read up to its closing quote, or up to the end of the text. -/
theorem exists_delivers_scanString (host : Host S) (rest : List Char) :
    ∃ behind, rest = (Lexeme.stringTail rest).1 ++ behind ∧
      Delivers host (scanString host) ('"' :: (Lexeme.stringTail rest).1) behind .string
        (Lexeme.stringTail rest).2 := by
  obtain ⟨behind, hbehind, hreads⟩ := exists_reads_stringTurns host rest ['"']
  refine ⟨behind, hbehind, ?_⟩
  have hstring : Reads host (readString host) (['"'] ++ (Lexeme.stringTail rest).1) behind
      (['"'] ++ (Lexeme.stringTail rest).1, (Lexeme.stringTail rest).2) :=
    (reads_advance '"' _).bind hreads
  exact hstring.deliver (emits_emitLiteral (by decide) _ _)

/-- Read up to its closing delimiter, or up to the end of the text. -/
theorem exists_delivers_scanJson (host : Host S) (rest : List Char) :
    ∃ behind, rest = (Lexeme.jsonTail rest).1 ++ behind ∧
      Delivers host (scanJson host) ('{' :: '|' :: (Lexeme.jsonTail rest).1) behind .json
        (Lexeme.jsonTail rest).2 := by
  obtain ⟨behind, hbehind, hreads⟩ := exists_reads_jsonTurns host rest (['{'] ++ ['|'])
  refine ⟨behind, hbehind, ?_⟩
  have hjson : Reads host (readJson host) (['{'] ++ (['|'] ++ (Lexeme.jsonTail rest).1)) behind
      (['{'] ++ ['|'] ++ (Lexeme.jsonTail rest).1, (Lexeme.jsonTail rest).2) :=
    (reads_advance '{' _).bind ((reads_advance '|' _).bind hreads)
  exact hjson.deliver (emits_emitLiteral (by decide) _ _)

/-! ### The next item -/

/-- In front of `text ++ rest` the action consumes `text` and makes an item of it: a token, which it
yields, or a stray character. -/
def Scans (host : Host S) (m : Action (Scanner S) (Option Token)) (piece : Lexeme)
    (rest : List Char) : Prop :=
  ∀ ⦃s⦄, Stands host s s.tokenStart (piece.text ++ rest) →
    Ends m s
      (fun token? t => ∃ item,
        Item.ofLexeme? s.tokenStart piece = some item ∧ token? = item.token? ∧
          Stands host t (s.tokenStart.after piece.text) rest ∧ t.disposed = s.disposed ∧
          t.expectVersionNumber = Lexeme.isAfterVersion s.expectVersionNumber piece ∧
          t.reports = s.reports ++ item.diagnostics)
      (Throws host s)

/-- A token that is delivered is the next piece of the text. -/
theorem Delivers.scans {m : Action (Scanner S) Token} {c : Char} {more rest : List Char}
    {kind : Kind} {complete : Bool} (h : Delivers host m (c :: more) rest kind complete) :
    Scans host (do return some (← m)) ⟨.token kind complete, c, more⟩ rest := by
  intro s hs
  rw [ends_bind]
  refine (h hs).mono_post fun token t ⟨htoken, ht, hdisposed, hflag, hreports⟩ => ?_
  exact ⟨.token token, by rw [htoken]; rfl, rfl, ht, hdisposed, hflag, hreports⟩

/-- An operator is consumed as often as it has characters. -/
theorem delivers_scanSpelling {kind : Kind} (hkind : kind ≠ .version) (spelling rest : List Char) :
    Delivers host (scanSpelling host spelling kind) spelling rest kind true :=
  (reads_advances spelling rest).deliver (emits_emit hkind _)

/-- A stray character is reported and then consumed. -/
theorem scans_stray (host : Host S) (c : Char) (rest : List Char) :
    Scans host (scanSymbol host c []) ⟨.stray, c, []⟩ rest := by
  intro s hs
  have hplace := hs.here_eq
  by_cases htakes : host.takes s.reports (.stray c s.tokenStart)
  · simp only [scanSymbol, report, ends_bind, ends_get, ends_pure, hplace, htakes, if_true,
      ends_set]
    have hs' : Stands host { s with reports := s.reports ++ [.stray c s.tokenStart] } s.tokenStart
        ([c] ++ rest) := ⟨hs.holds, hs.here_eq⟩
    refine (reads_advance c rest hs').mono ?_ fun _ _ => False.elim
    rintro _ t ⟨-, ht, hkeeps⟩
    exact ⟨.stray c s.tokenStart, rfl, rfl, ht, hkeeps.disposed, hkeeps.expectVersionNumber,
      hkeeps.reports⟩
  · simp only [scanSymbol, report, ends_bind, ends_get, ends_pure, hplace, htakes]
    exact ⟨rfl, ⟨_, by simpa using htakes⟩, ⟨_, hs.holds⟩, rfl⟩

/-- What is looked at first consumes nothing. -/
theorem Reads.lookScan {m : Action (Scanner S) α} {f : α → Action (Scanner S) (Option Token)}
    {value : α} {piece : Lexeme} {rest : List Char}
    (h : Reads host m [] (piece.text ++ rest) value) (h' : Scans host (f value) piece rest) :
    Scans host (m >>= f) piece rest := by
  intro s hs
  rw [ends_bind]
  refine (h hs).mono (fun v t ⟨hv, ht, hkeeps⟩ => ?_) fun _ _ => False.elim
  subst hv
  rw [← hkeeps.tokenStart] at ht
  refine (h' ht).mono (fun token? u ⟨item, hitem, htoken, hu, hdisposed, hflag, hreports⟩ => ?_)
    fun _ _ hthrows => hthrows.of_disposed hkeeps.disposed
  rw [hkeeps.tokenStart] at hitem hu
  rw [hkeeps.expectVersionNumber] at hflag
  rw [hkeeps.reports] at hreports
  exact ⟨item, hitem, htoken, hu, hdisposed.trans hkeeps.disposed, hflag, hreports⟩

/-- The first operator of a list that comes next makes the token. -/
theorem exists_scans_scanSymbol (host : Host S) (c : Char) (rest : List Char)
    (entries : List (List Char × Kind))
    (h : ∀ entry ∈ entries, entry.1 ≠ [] ∧ entry.2 ≠ .version) (piece : Lexeme)
    (hpiece : piece =
      match entries.find? (·.1.isPrefixOf (c :: rest)) with
      | some (spelling, kind) => Lexeme.ofKind kind c spelling.tail
      | none => ⟨.stray, c, []⟩) :
    ∃ behind, c :: rest = piece.text ++ behind ∧
      Scans host (scanSymbol host c entries) piece behind := by
  induction entries with
  | nil =>
    subst hpiece
    exact ⟨rest, rfl, scans_stray host c rest⟩
  | cons entry entries ih =>
    obtain ⟨⟨hne, hversion⟩, hentries⟩ := List.forall_mem_cons.1 h
    obtain ⟨spelling, kind⟩ := entry
    by_cases hahead : spelling.isPrefixOf (c :: rest)
    · rw [List.find?_cons, hahead] at hpiece
      obtain ⟨d, more, rfl⟩ := List.exists_cons_of_ne_nil hne
      obtain ⟨behind, hbehind⟩ := List.isPrefixOf_iff_prefix.1 hahead
      obtain rfl : d = c := (List.cons.inj hbehind).1
      subst hpiece
      refine ⟨behind, hbehind.symm, Reads.lookScan (reads_lookingAt _ _) ?_⟩
      rw [if_pos (by simp [Lexeme.text, Lexeme.ofKind])]
      exact (delivers_scanSpelling hversion _ _).scans
    · have hfalse : spelling.isPrefixOf (c :: rest) = false := Bool.eq_false_iff.2 hahead
      rw [List.find?_cons, hfalse] at hpiece
      obtain ⟨behind, hbehind, hscans⟩ := ih hentries hpiece
      refine ⟨behind, hbehind, Reads.lookScan (reads_lookingAt _ _) ?_⟩
      rw [← hbehind, if_neg hahead]
      exact hscans

/-- The branches that a scanner tries in front of a character are those by which the first piece of
the text is determined. -/
theorem exists_scans_scanFrom (host : Host S) (afterVersion : Bool) {c : Char} (rest : List Char)
    (hspace : Lexeme.isSpace c = false) (hhash : c ≠ '#') :
    ∃ behind, c :: rest = (Lexeme.leading afterVersion c rest).text ++ behind ∧
      Scans host (scanFrom host afterVersion c) (Lexeme.leading afterVersion c rest) behind := by
  unfold Lexeme.leading scanFrom
  rw [if_neg (by simpa using hspace), if_neg hhash]
  by_cases hnewline : c = '\n'
  · subst hnewline
    exact ⟨rest, rfl, (delivers_scanSpelling (by decide) _ _).scans⟩
  rw [if_neg hnewline, if_neg hnewline]
  by_cases hdigit : c.isDigit
  · rw [if_pos hdigit]
    cases afterVersion with
    | true =>
      obtain ⟨behind, hbehind, hreads⟩ := exists_reads_readVersion host hdigit rest
      rw [if_pos (by simpa using hdigit)]
      refine ⟨behind, congrArg (c :: ·) hbehind, ?_⟩
      exact (hreads.deliver (emits_emit (by decide) _)).scans
    | false =>
      obtain ⟨behind, hbehind, hdelivers⟩ := exists_delivers_scanNumber host hdigit rest
      rw [if_neg (by simp), if_pos hdigit]
      exact ⟨behind, congrArg (c :: ·) hbehind, hdelivers.scans⟩
  simp only [hdigit, Bool.and_false, Bool.false_eq_true, if_false]
  by_cases hword : Lexeme.isWordStart c
  · obtain ⟨kind, more, behind, hpiece, hbehind, hdelivers⟩ :=
      exists_delivers_scanWord host hword rest
    rw [if_pos hword, if_pos hword, hpiece]
    exact ⟨behind, congrArg (c :: ·) hbehind, hdelivers.scans⟩
  rw [if_neg hword, if_neg hword]
  by_cases hquote : c = '"'
  · subst hquote
    obtain ⟨behind, hbehind, hdelivers⟩ := exists_delivers_scanString host rest
    exact ⟨behind, congrArg ('"' :: ·) hbehind, hdelivers.scans⟩
  rw [if_neg hquote, if_neg hquote]
  by_cases hjson : (c = '{' && rest.head? = some '|') = true
  · obtain ⟨rfl, hbar⟩ : c = '{' ∧ rest.head? = some '|' := by simpa using hjson
    obtain ⟨rest, rfl⟩ : ∃ more, rest = '|' :: more := by
      cases rest with
      | nil => cases hbar
      | cons d more => exact ⟨more, by simpa using hbar⟩
    obtain ⟨behind, hbehind, hdelivers⟩ := exists_delivers_scanJson host rest
    refine ⟨behind, congrArg ('{' :: '|' :: ·) hbehind, ?_⟩
    refine Reads.lookScan (reads_ahead 1 _) ?_
    exact hdelivers.scans
  rw [if_neg hjson]
  -- No literal begins here, so the list of operators decides.
  obtain ⟨behind, hbehind, hscans⟩ :=
    exists_scans_scanSymbol host c rest Kind.operators (by decide) (Lexeme.symbol c rest) rfl
  refine ⟨behind, hbehind, Reads.lookScan (reads_ahead 1 _) ?_⟩
  rw [← hbehind, if_neg (by simpa [List.head?_eq_getElem?] using hjson)]
  exact hscans

/-! ### Tokens in a row -/

/-- What is left of a text for someone reading tokens. -/
def streamAt (place : Position) (afterVersion : Bool) (text : List Char) : TokenStream :=
  { items := itemsAt place afterVersion text, last := .atEnd (place.after text) }

/-- The scanner has come to rest: nothing is left but the end of the text, and that has been
scanned. -/
structure AtRest (host : Host S) (t : Scanner S) (place : Position) : Prop where
  stands : Stands host t place []
  disposed : t.disposed = false
  tokenStart : t.tokenStart = place
  expectVersionNumber : t.expectVersionNumber = false

/-- What one attempt at a token comes to: the end of the text, or an item and the text behind it. -/
inductive Attempt (host : Host S) (s : Scanner S) (place : Position) (rest : List Char) :
    Option Token → Scanner S → Prop where
  | atEnd {t : Scanner S} (hitems : itemsAt place s.expectVersionNumber rest = [])
      (ht : AtRest host t (place.after rest)) (hreports : t.reports = s.reports) :
      Attempt host s place rest (some (.atEnd (place.after rest))) t
  | item {t : Scanner S} {item : Item} {text behind : List Char} (hrest : rest = text ++ behind)
      (htext : text ≠ [])
      (hitems : itemsAt place s.expectVersionNumber rest =
        item :: itemsAt (place.after text) t.expectVersionNumber behind)
      (hkind : ∀ token, item = .token token → token.kind ≠ .eof)
      (ht : Stands host t (place.after text) behind) (hdisposed : t.disposed = false)
      (hreports : t.reports = s.reports ++ item.diagnostics) :
      Attempt host s place rest item.token? t

/-- Blanks and comments are skipped, and then there is the end of the text, a piece of it, or a
report that is not taken. -/
theorem ends_scanToken {s : Scanner S} {place : Position} {rest : List Char}
    (hs : Stands host s place rest) (hdisposed : s.disposed = false) :
    Ends (scanToken host) s (Attempt host s place rest) (Throws host s) := by
  obtain ⟨blanks, behind, rfl, hreads, hhead, hitems⟩ := exists_reads_skipBlanks host rest
  rw [scanToken, ends_bind]
  refine (hreads hs).mono ?_ fun _ _ => False.elim
  rintro _ t ⟨-, ht, hkeeps⟩
  rw [ends_bind, ends_modify, ends_bind, ht.here_eq]
  have ht' : Stands host { t with tokenStart := place.after blanks } (place.after blanks)
      ([] ++ behind) := ⟨ht.holds, ht.here_eq⟩
  refine (reads_ahead 0 behind ht').mono ?_ fun _ _ => False.elim
  rintro _ u ⟨rfl, hu, hkeeps'⟩
  have hstart : u.tokenStart = place.after blanks := hkeeps'.tokenStart
  have hflag := hkeeps'.expectVersionNumber.trans hkeeps.expectVersionNumber
  have hreports := hkeeps'.reports.trans hkeeps.reports
  have hsame : u.disposed = s.disposed := hkeeps'.disposed.trans hkeeps.disposed
  -- Behind the blanks there is the end of the text, or a character that starts a piece.
  cases behind with
  | nil =>
    rw [List.append_nil] at hitems ⊢
    simp only [emit, ends_bind, ends_modify, ends_get, ends_pure, List.getElem?_nil, hstart]
    exact .atEnd (hitems ..) ⟨⟨hu.holds, hu.here_eq⟩, hsame.trans hdisposed, rfl, rfl⟩ hreports
  | cons c rest =>
    -- the piece is the next one of the text, as no blank and no comment starts here
    obtain ⟨hspace, hhash⟩ := hhead c rfl
    obtain ⟨behind, hbehind, hscans⟩ :=
      exists_scans_scanFrom host u.expectVersionNumber rest hspace hhash
    rw [← hstart] at hu
    have hends := hscans (hbehind ▸ hu)
    rw [List.getElem?_cons_zero, ends_bind, ends_get]
    refine hends.mono ?_ fun _ _ hthrows => hthrows.of_disposed hsame
    rintro _ v ⟨item, hitem, rfl, hv, hdisposed', hflag', hreports'⟩
    rw [hstart] at hv hitem
    rw [hflag] at hflag' hbehind hitem hv
    have hcut := itemsAt_cons rfl hbehind (place.after blanks)
    rw [hitem, ← hflag', ← Position.after_append] at hcut
    rw [← Position.after_append] at hv
    refine .item ?_ (by simp [Lexeme.text]) ((hitems ..).trans hcut) ?_ hv
      (hdisposed'.trans (hsame.trans hdisposed)) (hreports'.trans (by rw [hreports]))
    · rw [hbehind, List.append_assoc]
    · rintro token rfl
      exact Lexeme.inner_leading _ _ _ _ _ (Item.role_of_ofLexeme? hitem)

/-- What a call of `nextToken` comes to: the next step of the stream. It leaves less of the text, or
it has come to rest. -/
structure Advances (host : Host S) (s : Scanner S) (place : Position) (rest : List Char)
    (token : Token) (t : Scanner S) (text behind : List Char) : Prop where
  rest_eq : rest = text ++ behind
  token_eq : token = (streamAt place s.expectVersionNumber rest).next.token
  stream_eq : (streamAt place s.expectVersionNumber rest).next.rest =
    streamAt (place.after text) t.expectVersionNumber behind
  reports_eq : t.reports = s.reports ++ (streamAt place s.expectVersionNumber rest).next.report
  stands : Stands host t (place.after text) behind
  disposed : t.disposed = false
  progress : (token.kind ≠ .eof ∧ text ≠ []) ∨
    (token = .atEnd (place.after rest) ∧ behind = [] ∧ AtRest host t (place.after rest))

/-- A step of a stream does not look at the items it was called with, only at those behind. -/
theorem step_items (items items' tail : List Item) (last : Token) :
    TokenStream.next.step ⟨items, last⟩ tail = TokenStream.next.step ⟨items', last⟩ tail := by
  induction tail with
  | nil => rfl
  | cons item tail ih =>
    cases item with
    | token t => rfl
    | stray c place => rw [TokenStream.next.step, ih, TokenStream.next.step]

/-- A stray character is reported before whatever comes next. -/
theorem next_stray (c : Char) (place : Position) (items : List Item) (last : Token) :
    (TokenStream.mk (.stray c place :: items) last).next =
      { (TokenStream.mk items last).next with
        report := .stray c place :: (TokenStream.mk items last).next.report } := by
  unfold TokenStream.next
  rw [TokenStream.next.step, step_items _ items]

/-- A stray character behind which there is a token. -/
theorem Advances.stray {s t u : Scanner S} {place : Position} {c : Char} {at' : Position}
    {text behind text' behind' : List Char} {token : Token}
    (hitems : itemsAt place s.expectVersionNumber (text ++ behind) =
      .stray c at' :: itemsAt (place.after text) t.expectVersionNumber behind)
    (hreports : t.reports = s.reports ++ [.stray c at'])
    (h : Advances host t (place.after text) behind token u text' behind') :
    Advances host s place (text ++ behind) token u (text ++ text') behind' := by
  have hstream : streamAt place s.expectVersionNumber (text ++ behind) =
      ⟨.stray c at' :: itemsAt (place.after text) t.expectVersionNumber behind,
        .atEnd ((place.after text).after behind)⟩ := by
    rw [streamAt, hitems, Position.after_append]
  have hnext := next_stray c at' (itemsAt (place.after text) t.expectVersionNumber behind)
    (.atEnd ((place.after text).after behind))
  rw [← hstream] at hnext
  constructor
  · rw [h.rest_eq, List.append_assoc]
  · rw [hnext]
    exact h.token_eq
  · rw [hnext, Position.after_append]
    exact h.stream_eq
  · rw [h.reports_eq, hreports, hnext, List.append_assoc]
    rfl
  · rw [Position.after_append]
    exact h.stands
  · exact h.disposed
  · rw [Position.after_append]
    exact h.progress.imp (fun ⟨hkind, htext⟩ => ⟨hkind, by simp [htext]⟩) id

/-- A token is delivered in the end, as every stray character on the way is consumed. -/
theorem ends_nextToken {s : Scanner S} {place : Position} {rest : List Char}
    (hs : Stands host s place rest) (hdisposed : s.disposed = false) :
    Ends (nextToken host) s
      (fun token t => ∃ text behind, Advances host s place rest token t text behind)
      (Throws host s) := by
  simp only [nextToken, ends_bind, ends_get, hdisposed, Bool.false_eq_true, if_false]
  -- A stray character is reported and the loop goes on, with less of the text left.
  induction hlength : rest.length using Nat.strongRecOn generalizing s place rest with
  | ind n ih =>
    rw [loop_eq, ends_bind, tokenTurn, ends_bind]
    refine (ends_scanToken hs hdisposed).mono_post fun token? t hattempt => ?_
    cases hattempt with
    | atEnd hitems ht hreports =>
      refine ⟨rest, [], (List.append_nil _).symm, ?_, ?_, ?_, ht.stands, ht.disposed,
        .inr ⟨rfl, rfl, ht⟩⟩
      all_goals simp only [streamAt, hitems]
      · rfl
      · rw [ht.expectVersionNumber]; rfl
      · rw [hreports]; exact (List.append_nil _).symm
    | @item _ item text behind hrest htext hitems hkind ht hdisposed' hreports =>
      cases item with
      | token token =>
        refine ⟨text, behind, hrest, ?_, ?_, ?_, ht, hdisposed', .inl ⟨hkind _ rfl, htext⟩⟩
        all_goals simp only [streamAt, hitems]
        · rfl
        · rw [hrest, Position.after_append]; rfl
        · exact hreports
      | stray c at' =>
        subst hrest
        have hlt : behind.length < n := by
          have := List.length_pos_iff.2 htext
          rw [← hlength, List.length_append]
          omega
        refine (ih _ hlt ht hdisposed' rfl).mono ?_
          fun _ _ hthrows => hthrows.of_disposed (hdisposed'.trans hdisposed.symm)
        rintro token u ⟨text', behind', hu⟩
        exact ⟨_, _, hu.stray hitems hreports⟩

/-- At rest, a scanner yields the end of the text and stays as it is. -/
theorem nextToken_of_atRest {t : Scanner S} {place : Position} (h : AtRest host t place) :
    nextToken host t = some (.ok (.atEnd place), t) := by
  have hpeek : host.source.peek t.input 1 = none := h.stands.holds.1 0
  have hsame : { t with tokenStart := place, expectVersionNumber := false } = t := by
    rw [← h.tokenStart, ← h.expectVersionNumber]
  have hends : Ends (nextToken host) t (fun token u => token = .atEnd place ∧ u = t)
      fun _ _ => False := by
    simp only [nextToken, ends_bind, ends_get, h.disposed, Bool.false_eq_true, if_false]
    rw [loop_eq, ends_bind]
    simp only [tokenTurn, scanToken, skipBlanks, ends_bind]
    rw [loop_eq, ends_bind]
    simp only [blankTurn, ahead, emit, ends_bind, ends_get, ends_modify, ends_pure, hpeek,
      Option.any_none, Bool.false_eq_true, reduceCtorEq, if_false, h.stands.here_eq]
    exact ⟨rfl, hsame⟩
  obtain ⟨outcome, u, hrun, hoc⟩ := hends.exists
  cases outcome with
  | error interrupt => exact hoc.elim
  | ok token =>
    obtain ⟨rfl, rfl⟩ := hoc
    exact hrun

end Cqasm.Machine.Scanner
