import Cqasm.Proofs.Lexical.Munch
import Cqasm.Proofs.Machine.Scanner

/-!
# What the scanner consumes

Most of the scanner only looks ahead and consumes. `Reads` says which text an action consumes in
front of another, what it yields, and that it changes nothing else. The pieces of text that the
scanner consumes are those that `Lexeme` cuts off.

Every loop consumes a character in each of its turns but the last, so the inductions are on what is
left of the text.
-/

set_option autoImplicit false

namespace Cqasm.Machine.Scanner

open Machine.Action

variable {S α β γ : Type} {host : Host S}

/-- Where a scanner stands: at a place, in front of a text. -/
structure Stands (host : Host S) (s : Scanner S) (place : Position) (rest : List Char) :
    Prop where
  holds : host.source.Holds s.input rest
  here_eq : s.here host = place

/-- Whatever a scanner knows besides its place is the same in both states. -/
structure Keeps (s t : Scanner S) : Prop where
  disposed : t.disposed = s.disposed
  tokenStart : t.tokenStart = s.tokenStart
  expectVersionNumber : t.expectVersionNumber = s.expectVersionNumber
  reports : t.reports = s.reports

/-- Nothing is taken away from what a scanner keeps by doing nothing, -/
theorem Keeps.refl (s : Scanner S) : s.Keeps s :=
  ⟨rfl, rfl, rfl, rfl⟩

/-- or by doing two such things. -/
theorem Keeps.trans {s t u : Scanner S} (h : s.Keeps t) (h' : t.Keeps u) : s.Keeps u where
  disposed := h'.disposed.trans h.disposed
  tokenStart := h'.tokenStart.trans h.tokenStart
  expectVersionNumber := h'.expectVersionNumber.trans h.expectVersionNumber
  reports := h'.reports.trans h.reports

/-- In front of `text ++ rest` the action consumes `text`, yields the value and does nothing
else. -/
def Reads (host : Host S) (m : Action (Scanner S) α) (text rest : List Char) (value : α) : Prop :=
  ∀ ⦃s place⦄, Stands host s place (text ++ rest) →
    Ends m s
      (fun v t => v = value ∧ Stands host t (place.after text) rest ∧ s.Keeps t)
      fun _ _ => False

section

variable {m : Action (Scanner S) α} {f : α → Action (Scanner S) β} {text text' rest : List Char}
  {value : α} {result : β}

theorem reads_pure (value : α) : Reads host (pure value) [] rest value :=
  fun s _ h => ⟨rfl, h, .refl s⟩

/-- Texts are read one behind the other. -/
theorem Reads.bind (h : Reads host m text (text' ++ rest) value)
    (h' : Reads host (f value) text' rest result) :
    Reads host (m >>= f) (text ++ text') rest result := by
  intro s place hs
  rw [List.append_assoc] at hs
  rw [ends_bind]
  refine (h hs).mono_post fun v t ⟨hv, ht, hkeeps⟩ => ?_
  subst hv
  refine (h' ht).mono_post fun w u ⟨hw, hu, hkeeps'⟩ => ⟨hw, ?_, hkeeps.trans hkeeps'⟩
  rw [Position.after_append]
  exact hu

/-- Looking ahead consumes nothing. -/
theorem Reads.look (h : Reads host m [] (text ++ rest) value)
    (h' : Reads host (f value) text rest result) : Reads host (m >>= f) text rest result :=
  h.bind h'

/-- What consumes nothing behind the text does not add to it. -/
theorem Reads.yield (h : Reads host m text rest value)
    (h' : Reads host (f value) [] rest result) : Reads host (m >>= f) text rest result := by
  have : Reads host (m >>= f) (text ++ []) rest result := h.bind h'
  rwa [List.append_nil] at this

/-- A turn that asks for another one has read the first part of what the loop reads. -/
theorem Reads.again {body : γ → Action (Scanner S) (γ ⊕ β)} {c next : γ}
    (h : Reads host (body c) text (text' ++ rest) (.inl next))
    (h' : Reads host (loop body next) text' rest result) :
    Reads host (loop body c) (text ++ text') rest result := by
  rw [loop_eq]
  exact h.bind h'

/-- The last turn reads what is left of it. -/
theorem Reads.done {body : γ → Action (Scanner S) (γ ⊕ β)} {c : γ}
    (h : Reads host (body c) text rest (.inr result)) :
    Reads host (loop body c) text rest result := by
  rw [loop_eq]
  exact h.yield (reads_pure _)

end

/-! ## Single steps -/

/-- Looking ahead consumes nothing, and beyond the end there is nothing to be seen. -/
theorem reads_ahead (k : Nat) (rest : List Char) :
    Reads host (ahead host (k + 1)) [] rest rest[k]? := by
  intro s place h
  refine ⟨?_, h, .refl s⟩
  have hholds := h.holds
  cases rest with
  | nil => exact hholds.1 k
  | cons c rest => exact hholds.1 k

theorem reads_isAhead (isMember : Char → Bool) (k : Nat) (rest : List Char) :
    Reads host (isAhead host isMember (k + 1)) [] rest (rest[k]?.any isMember) :=
  (reads_ahead k rest).look (reads_pure _)

/-- Consuming a character is consuming the first one there is, which is why there must be one. -/
theorem reads_advance (c : Char) (rest : List Char) :
    Reads host (advance host) [c] rest [c] := by
  intro s place h
  obtain ⟨hpeek, input, hconsume, hindex, hholds⟩ := h.holds
  have hc : host.source.peek s.input 1 = some c := hpeek 0
  obtain rfl := h.here_eq
  simp only [advance, ends_bind, ends_get, hconsume, hc]
  by_cases hnewline : c = '\n'
  · subst hnewline
    exact ⟨rfl, ⟨hholds, by simp [here, hindex, Position.next]⟩, rfl, rfl, rfl, rfl⟩
  · simp only [Option.some.injEq, hnewline, if_false]
    exact ⟨rfl, ⟨hholds, by simp [here, hindex, Position.next, hnewline]⟩, rfl, rfl, rfl, rfl⟩

/-! ## Loops -/

/-- By induction on the text: the loop stops in front of the first character that is not of the
class. -/
theorem reads_takeTurns (isMember : Char → Bool) (rest before : List Char) :
    Reads host (loop (takeTurn host isMember) before) (rest.takeWhile isMember)
      (rest.dropWhile isMember) (before ++ rest.takeWhile isMember) := by
  induction rest generalizing before with
  | nil =>
    rw [List.takeWhile_nil, List.append_nil]
    exact .done ((reads_isAhead isMember 0 []).look (reads_pure _))
  | cons c rest ih =>
    by_cases hc : isMember c
    · rw [List.takeWhile_cons_of_pos hc, List.dropWhile_cons_of_pos hc]
      have hturn : Reads host (takeTurn host isMember before) [c] rest (.inl (before ++ [c])) := by
        refine (reads_isAhead isMember 0 _).look ?_
        rw [if_pos (by simpa using hc)]
        exact (reads_advance c rest).yield (reads_pure _)
      have hrest := ih (before ++ [c])
      rw [List.append_assoc] at hrest
      rw [← List.takeWhile_append_dropWhile (p := isMember) (l := rest)] at hturn
      exact hturn.again hrest
    · rw [List.takeWhile_cons_of_neg hc, List.dropWhile_cons_of_neg hc, List.append_nil]
      refine .done ((reads_isAhead isMember 0 _).look ?_)
      rw [if_neg (by simpa using hc)]
      exact reads_pure _

theorem reads_takeWhile (isMember : Char → Bool) (rest : List Char) :
    Reads host (takeWhile host isMember) (rest.takeWhile isMember) (rest.dropWhile isMember)
      (rest.takeWhile isMember) :=
  reads_takeTurns isMember rest []

/-- The items of the text that starts at a place. -/
def itemsAt (place : Position) (afterVersion : Bool) (text : List Char) : List Item :=
  Item.ofLexemes place (Lexeme.cutFrom afterVersion 0 text)

/-- The first piece of a text makes an item, or none, and the rest of the text makes the others. -/
theorem itemsAt_cons {afterVersion : Bool} {c : Char} {rest behind : List Char} {piece : Lexeme}
    (hpiece : Lexeme.leading afterVersion c rest = piece) (hrest : c :: rest = piece.text ++ behind)
    (place : Position) :
    itemsAt place afterVersion (c :: rest) =
      (Item.ofLexeme? place piece).toList ++
        itemsAt (place.after piece.text) (Lexeme.isAfterVersion afterVersion piece) behind := by
  have hbehind : rest.drop piece.more.length = behind := by
    subst hpiece
    exact List.append_cancel_left ((Lexeme.text_leading_append ..).trans hrest)
  rw [itemsAt, Lexeme.cutFrom_cons, hpiece, Item.ofLexemes, hbehind]
  rfl

/-- A scanner skips what makes no item, up to a character that starts one or to the end. -/
theorem exists_reads_skipBlanks (host : Host S) (rest : List Char) :
    ∃ blanks behind, rest = blanks ++ behind ∧ Reads host (skipBlanks host) blanks behind () ∧
      (∀ c ∈ behind.head?, Lexeme.isSpace c = false ∧ c ≠ '#') ∧
      ∀ place afterVersion,
        itemsAt place afterVersion rest = itemsAt (place.after blanks) afterVersion behind := by
  -- A comment is passed over in one turn, so the induction is on the length and not on the text.
  induction h : rest.length using Nat.strongRecOn generalizing rest with
  | ind n ih =>
    cases rest with
    | nil =>
      refine ⟨[], [], rfl, .done ?_, by simp, fun _ _ => rfl⟩
      exact (reads_ahead 0 []).look (reads_pure _)
    | cons c rest =>
      by_cases hspace : Lexeme.isSpace c
      · obtain ⟨blanks, behind, rfl, hreads, hhead, hitems⟩ :=
          ih rest.length (by simp [← h]) rest rfl
        have hturn : Reads host (blankTurn host ()) [c] (blanks ++ behind) (.inl ()) := by
          refine (reads_ahead 0 _).look ?_
          rw [if_pos (by simpa using hspace)]
          exact (reads_advance c _).yield (reads_pure _)
        refine ⟨c :: blanks, behind, rfl, hturn.again hreads, hhead, ?_⟩
        intro place afterVersion
        exact (itemsAt_cons (Lexeme.leading_of_isSpace hspace ..) rfl place).trans (hitems _ _)
      -- a comment goes up to the newline, which is not part of it
      · by_cases hhash : c = '#'
        · subst hhash
          have hsplit := List.takeWhile_append_dropWhile (p := (· ≠ '\n')) (l := rest)
          obtain ⟨blanks, behind, hrest, hreads, hhead, hitems⟩ :=
            ih (rest.dropWhile (· ≠ '\n')).length
              (by have := (List.dropWhile_sublist (· ≠ '\n') (l := rest)).length_le
                  simp only [List.length_cons] at h; omega)
              (rest.dropWhile (· ≠ '\n')) rfl
          have hturn : Reads host (blankTurn host ()) ('#' :: rest.takeWhile (· ≠ '\n'))
              (blanks ++ behind) (.inl ()) := by
            rw [← hrest]
            refine (reads_ahead 0 _).look ?_
            rw [if_neg (by simpa using hspace), if_pos (by simp)]
            exact (reads_takeWhile (· ≠ '\n') ('#' :: rest)).yield (reads_pure _)
          refine ⟨_, behind, ?_, hturn.again hreads, hhead, ?_⟩
          · rw [List.cons_append, List.cons_append, List.append_assoc, ← hrest, hsplit]
          · intro place afterVersion
            rw [itemsAt_cons (Lexeme.leading_hash ..) (congrArg ('#' :: ·) hsplit.symm), hitems,
              Position.after_append]
            rfl
        · refine ⟨[], c :: rest, rfl, .done ?_, ?_, fun _ _ => rfl⟩
          swap
          · simpa using ⟨by simpa using hspace, hhash⟩
          refine (reads_ahead 0 _).look ?_
          rw [if_neg (by simpa using hspace), if_neg (by simpa using hhash)]
          exact reads_pure _

/-! ## Numbers -/

/-- Whether the text goes on with a point and a digit. -/
def pointsAhead : List Char → Bool
  | c :: rest => c = '.' && Lexeme.startsWith Char.isDigit rest
  | [] => false

theorem any_head? (isMember : Char → Bool) (text : List Char) :
    text[0]?.any isMember = Lexeme.startsWith isMember text := by
  cases text <;> rfl

/-- Looking at the next two characters sees whether a dot is in front of a digit. -/
theorem pointsAhead_eq (text : List Char) :
    (decide (text[0]? = some '.') && text[1]?.any Char.isDigit) = pointsAhead text := by
  rcases text with - | ⟨c, - | ⟨d, rest⟩⟩ <;> simp [pointsAhead, Lexeme.startsWith]

/-- Then there is a dot, and a digit behind it. -/
theorem exists_of_pointsAhead {text : List Char} (h : pointsAhead text) :
    ∃ rest, text = '.' :: rest ∧ Lexeme.startsWith Char.isDigit rest := by
  cases text with
  | nil => cases h
  | cons c rest =>
    simp only [pointsAhead, Bool.and_eq_true, decide_eq_true_eq] at h
    exact ⟨rest, by rw [h.1], h.2⟩

/-- A digit is no dot. -/
theorem pointsAhead_of_isDigit {text : List Char} (h : Lexeme.startsWith Char.isDigit text) :
    pointsAhead text = false := by
  cases text with
  | nil => rfl
  | cons c rest =>
    have hne : c ≠ '.' := by
      rintro rfl
      cases h
    simp [pointsAhead, hne]

/-- Digits and the points between two of them. Each turn takes a digit and the point behind it, if
there is one, so no turn starts in front of a point. -/
theorem exists_reads_versionTurns (host : Host S) (text before : List Char)
    (hpoint : pointsAhead text = false) :
    ∃ behind, text = Lexeme.versionTail text ++ behind ∧
      Reads host (loop (versionTurn host) before) (Lexeme.versionTail text) behind
        (before ++ Lexeme.versionTail text) := by
  -- A turn reads a digit, and with it a point if a digit follows: one character or two.
  induction h : text.length using Nat.strongRecOn generalizing text before with
  | ind n ih =>
    by_cases hdigit : Lexeme.startsWith Char.isDigit text
    · cases text with
      | nil => cases hdigit
      | cons c rest =>
        have hc : c.isDigit := hdigit
        rw [Lexical.versionTail_of_isDigit hc]
        by_cases hahead : pointsAhead rest
        · obtain ⟨rest, rfl, hrest⟩ := exists_of_pointsAhead hahead
          have hlt : rest.length < n := by
            rw [← h, List.length_cons, List.length_cons]
            omega
          obtain ⟨behind, hbehind, hreads⟩ := ih rest.length hlt rest (before ++ [c] ++ ['.'])
            (pointsAhead_of_isDigit hrest) rfl
          have hturn : Reads host (versionTurn host before) [c, '.'] rest
              (.inl (before ++ [c] ++ ['.'])) := by
            refine (reads_isAhead _ 0 _).look ?_
            rw [if_pos (by simpa using hc)]
            refine Reads.bind (reads_advance c (['.'] ++ rest)) ?_
            refine (reads_ahead 0 _).look ((reads_isAhead _ 1 _).look ?_)
            rw [pointsAhead_eq, if_pos (by simpa using hahead)]
            exact (reads_advance '.' rest).yield (reads_pure _)
          refine ⟨behind, ?_, ?_⟩
          · rw [Lexical.versionTail_of_dot hrest, List.cons_append, List.cons_append, ← hbehind]
          · rw [hbehind] at hturn
            have := hturn.again hreads
            simpa [Lexical.versionTail_of_dot hrest] using this
        · have hahead : pointsAhead rest = false := by simpa using hahead
          obtain ⟨behind, hbehind, hreads⟩ := ih rest.length (by simp [← h]) rest
            (before ++ [c]) hahead rfl
          have hturn : Reads host (versionTurn host before) [c] rest (.inl (before ++ [c])) := by
            refine (reads_isAhead _ 0 _).look ?_
            rw [if_pos (by simpa using hc)]
            refine (reads_advance c rest).yield ?_
            refine (reads_ahead 0 _).look ((reads_isAhead _ 1 _).look ?_)
            rw [List.nil_append, pointsAhead_eq, hahead]
            exact reads_pure _
          refine ⟨behind, by rw [List.cons_append, ← hbehind], ?_⟩
          rw [hbehind] at hturn
          have := hturn.again hreads
          simpa using this
    -- Without a digit in front, and no point that leads to one, nothing is taken.
    · have hnil : Lexeme.versionTail text = [] := by
        cases text with
        | nil => rfl
        | cons c rest =>
          rw [Lexeme.versionTail, if_neg]
          simp_all [pointsAhead, Lexeme.startsWith]
      rw [hnil, List.append_nil]
      refine ⟨text, rfl, .done ((reads_isAhead _ 0 _).look ?_)⟩
      rw [List.nil_append, any_head?, if_neg hdigit]
      exact reads_pure _

/-- A fraction is read if it is there, and nothing otherwise. -/
theorem exists_reads_readFraction (host : Host S) (text : List Char) :
    ∃ behind, text = Lexeme.fractionPart text ++ behind ∧
      Reads host (readFraction host) (Lexeme.fractionPart text) behind
        (Lexeme.fractionPart text) := by
  by_cases hahead : pointsAhead text
  · obtain ⟨rest, rfl, hrest⟩ := exists_of_pointsAhead hahead
    have hpart : Lexeme.fractionPart ('.' :: rest) = '.' :: rest.takeWhile Char.isDigit :=
      if_pos hrest
    refine ⟨rest.dropWhile Char.isDigit, ?_, ?_⟩
    · rw [hpart, List.cons_append, List.takeWhile_append_dropWhile]
    · rw [hpart]
      refine (reads_ahead 0 _).look ((reads_isAhead _ 1 _).look ?_)
      rw [pointsAhead_eq, if_pos (by simpa using hahead)]
      refine Reads.bind (reads_advance '.' _) ?_
      exact (reads_takeWhile _ rest).yield (reads_pure _)
  -- a point with no digit behind it is left where it is
  · have hpart : Lexeme.fractionPart text = [] := by
      rcases text with - | ⟨c, rest⟩
      · rfl
      · unfold Lexeme.fractionPart
        split
        · next hcons =>
          rw [if_neg]
          intro hrest
          rw [hcons] at hahead
          exact hahead (by simp [pointsAhead, hrest])
        · rfl
    refine ⟨text, by rw [hpart, List.nil_append], ?_⟩
    rw [hpart]
    refine (reads_ahead 0 _).look ((reads_isAhead _ 1 _).look ?_)
    rw [pointsAhead_eq, if_neg (by simpa using hahead)]
    exact reads_pure _

/-- A sign is one character or none. -/
theorem signPart_cases (text : List Char) :
    Lexeme.signPart text = [] ∨
      ∃ sign rest, text = sign :: rest ∧ Lexeme.signPart text = [sign] := by
  rcases text with - | ⟨c, rest⟩
  · exact .inl rfl
  · by_cases h : c = '+' ∨ c = '-'
    · exact .inr ⟨c, rest, rfl, by simp [Lexeme.signPart, h]⟩
    · exact .inl (by simp [Lexeme.signPart, h])

/-- Looking at the next character sees whether it is a sign. -/
theorem hasSign_eq (text : List Char) :
    (decide (text[0]? = some '+') || decide (text[0]? = some '-')) =
      !(Lexeme.signPart text).isEmpty := by
  rcases text with - | ⟨c, rest⟩
  · rfl
  · by_cases h : c = '+' ∨ c = '-'
    · simp [Lexeme.signPart, h]
    · simpa [Lexeme.signPart, if_neg h] using h

/-- A sign that is there is read in front of what follows. -/
theorem reads_sign {text more behind : List Char} {f : List Char → Action (Scanner S) α} {value : α}
    (h : Reads host (f (Lexeme.signPart text)) more behind value) :
    Reads host
      (if !(Lexeme.signPart text).isEmpty then advance host >>= f else pure [] >>= f)
      (Lexeme.signPart text ++ more) behind value := by
  rcases signPart_cases text with hpart | ⟨sign, rest, rfl, hpart⟩
  · rw [hpart] at h ⊢
    exact (reads_pure []).bind h
  · rw [hpart] at h ⊢
    exact (reads_advance sign _).bind h

/-- How far the scanner looks for the digits of an exponent depends on whether there is a sign. -/
theorem reads_isAhead_behindSign (mark : Char) (rest : List Char) :
    Reads host (isAhead host Char.isDigit (if !(Lexeme.signPart rest).isEmpty then 3 else 2)) []
      (mark :: rest)
      (Lexeme.startsWith Char.isDigit (rest.drop (Lexeme.signPart rest).length)) := by
  rcases signPart_cases rest with h | ⟨sign, rest, rfl, h⟩
  · rw [h, ← any_head?]
    exact reads_isAhead Char.isDigit 1 (mark :: rest)
  · rw [h, ← any_head?]
    exact reads_isAhead Char.isDigit 2 (mark :: sign :: rest)

theorem isEmpty_takeWhile (isMember : Char → Bool) (text : List Char) :
    (text.takeWhile isMember).isEmpty = !Lexeme.startsWith isMember text := by
  rcases text with - | ⟨c, rest⟩
  · rfl
  · by_cases h : isMember c <;> simp [Lexeme.startsWith, h]

/-- An exponent mark with a sign, perhaps, and digits behind it. -/
theorem exponentPart_of_digits {mark : Char} {rest : List Char}
    (hmark : (decide (mark = 'e') || decide (mark = 'E')) = true)
    (hdigits : Lexeme.startsWith Char.isDigit (rest.drop (Lexeme.signPart rest).length)) :
    Lexeme.exponentPart (mark :: rest) =
      mark :: (Lexeme.signPart rest ++
        (rest.drop (Lexeme.signPart rest).length).takeWhile Char.isDigit) := by
  simp only [Lexeme.exponentPart, isEmpty_takeWhile, hmark, hdigits]
  rfl

/-- Without a mark and a digit there is no exponent. -/
theorem exponentPart_of_not {mark : Char} {rest : List Char}
    (h : ¬((decide (mark = 'e') || decide (mark = 'E')) = true ∧
      Lexeme.startsWith Char.isDigit (rest.drop (Lexeme.signPart rest).length))) :
    Lexeme.exponentPart (mark :: rest) = [] := by
  simp only [Lexeme.exponentPart, isEmpty_takeWhile, Bool.not_not]
  exact if_neg (by simpa using h)

/-- How far to look for the digit depends on whether there is a sign. -/
theorem exists_reads_readExponent (host : Host S) (text : List Char) :
    ∃ behind, text = Lexeme.exponentPart text ++ behind ∧
      Reads host (readExponent host) (Lexeme.exponentPart text) behind
        (Lexeme.exponentPart text) := by
  rcases text with - | ⟨mark, rest⟩
  · exact ⟨[], rfl, (reads_ahead 0 []).look (reads_pure _)⟩
  by_cases hmark : (decide (mark = 'e') || decide (mark = 'E')) = true
  swap
  · rw [exponentPart_of_not fun h => hmark h.1]
    refine ⟨_, rfl, (reads_ahead 0 _).look ?_⟩
    rw [if_neg (by simpa using hmark)]
    exact reads_pure _
  -- The mark is no part of the number unless a digit follows, with or without a sign in between. So
  -- two or three characters are looked at before any is taken.
  have hsign : Reads host (ahead host 2) [] (mark :: rest) rest[0]? := reads_ahead 1 _
  have hdigit : Reads host _ _ _ _ := reads_isAhead_behindSign mark rest
  by_cases hdigits : Lexeme.startsWith Char.isDigit (rest.drop (Lexeme.signPart rest).length)
  · rw [exponentPart_of_digits hmark hdigits]
    have htext : mark :: rest = mark :: (Lexeme.signPart rest ++
        (rest.drop (Lexeme.signPart rest).length).takeWhile Char.isDigit) ++
          (rest.drop (Lexeme.signPart rest).length).dropWhile Char.isDigit := by
      rw [List.cons_append, List.append_assoc, List.takeWhile_append_dropWhile,
        List.prefix_iff_eq_append.1 (Lexeme.signPart_isPrefix rest)]
    rw [hdigits] at hdigit
    refine ⟨_, htext, (reads_ahead 0 _).look ?_⟩
    rw [if_pos (by simpa using hmark)]
    refine (htext ▸ hsign).look ?_
    rw [hasSign_eq]
    refine (htext ▸ hdigit).look ?_
    rw [if_pos rfl]
    refine Reads.bind (reads_advance mark (_ ++ _)) ?_
    exact reads_sign ((reads_takeWhile _ _).yield (reads_pure _))
  · rw [exponentPart_of_not fun h => hdigits h.2]
    rw [Bool.not_eq_true] at hdigits
    rw [hdigits] at hdigit
    refine ⟨_, rfl, (reads_ahead 0 _).look ?_⟩
    rw [if_pos (by simpa using hmark)]
    refine hsign.look ?_
    rw [hasSign_eq]
    exact hdigit.look (reads_pure _)

/-- The first digit is known, and the loop reads the rest. -/
theorem exists_reads_readVersion (host : Host S) {c : Char} (hc : c.isDigit)
    (rest : List Char) :
    ∃ behind, rest = Lexeme.versionTail rest ++ behind ∧
      Reads host (readVersion host) (c :: Lexeme.versionTail rest) behind
        (c :: Lexeme.versionTail rest) := by
  have hpoint : pointsAhead (c :: rest) = false := pointsAhead_of_isDigit hc
  obtain ⟨behind, hbehind, hreads⟩ := exists_reads_versionTurns host (c :: rest) [] hpoint
  rw [Lexical.versionTail_of_isDigit hc] at hbehind hreads
  exact ⟨behind, List.tail_eq_of_cons_eq hbehind, hreads⟩

/-! ## Literals -/

/-- Each turn takes a character, and behind a backslash one more if there is one. -/
theorem exists_reads_stringTurns (host : Host S) (text before : List Char) :
    ∃ behind, text = (Lexeme.stringTail text).1 ++ behind ∧
      Reads host (loop (stringTurn host) before) (Lexeme.stringTail text).1 behind
        (before ++ (Lexeme.stringTail text).1, (Lexeme.stringTail text).2) := by
  fun_induction Lexeme.stringTail text generalizing before with
  | case1 =>
    refine ⟨[], rfl, .done ((reads_ahead 0 _).look ?_)⟩
    simp only [List.append_nil]
    exact reads_pure _
  | case2 rest =>
    refine ⟨rest, rfl, .done ((reads_ahead 0 _).look ?_)⟩
    exact (reads_advance '"' rest).yield (reads_pure _)
  | case3 c rest text complete heq ih =>
    rw [heq] at ih
    obtain ⟨behind, hbehind, hreads⟩ := ih (before ++ ['\\'] ++ [c])
    have hturn : Reads host (stringTurn host before) (['\\'] ++ [c]) (text ++ behind)
        (.inl (before ++ ['\\'] ++ [c])) := by
      refine (reads_ahead 0 _).look ?_
      refine Reads.bind (reads_advance '\\' _) ((reads_ahead 0 _).look ?_)
      exact (reads_advance c _).yield (reads_pure _)
    refine ⟨behind, by simpa using hbehind, ?_⟩
    have := hturn.again hreads
    simpa using this
  | case4 c rest hquote hbackslash text complete heq ih =>
    rw [heq] at ih
    obtain ⟨behind, hbehind, hreads⟩ := ih (before ++ [c])
    have hturn : Reads host (stringTurn host before) [c] (text ++ behind)
        (.inl (before ++ [c])) := by
      refine (reads_ahead 0 _).look ?_
      refine (reads_advance c _).yield ?_
      rw [if_neg hquote]
      refine (reads_ahead 0 _).look ?_
      rw [if_neg]
      · exact reads_pure _
      -- a backslash with something behind it would have been an escape
      · have hrest : rest = text ++ behind := hbehind
        rw [List.nil_append, ← hrest]
        cases rest with
        | nil => simp
        | cons d rest => simpa using fun hc => hbackslash d rest hc rfl
    refine ⟨behind, by simpa using hbehind, ?_⟩
    have := hturn.again hreads
    simpa using this

/-- What comes next is compared character by character. -/
theorem reads_compare (text : List Char) (spelling : List Char) (k : Nat) :
    Reads host (lookingAt.compare host (k + 1) spelling) [] text
      (spelling.isPrefixOf (text.drop k)) := by
  induction spelling generalizing k with
  | nil =>
    rw [List.isPrefixOf_nil_left]
    exact reads_pure _
  | cons c more ih =>
    refine (reads_ahead k _).look ?_
    rw [List.nil_append]
    by_cases hc : text[k]? = some c
    · obtain ⟨hk, hget⟩ := List.getElem?_eq_some_iff.1 hc
      rw [if_pos hc, List.drop_eq_getElem_cons hk, hget, List.isPrefixOf_cons_cons,
        beq_self_eq_true, Bool.true_and]
      exact ih (k + 1)
    · rw [if_neg hc]
      have hfalse : (c :: more).isPrefixOf (text.drop k) = false := by
        rw [← Bool.not_eq_true, List.isPrefixOf_iff_prefix]
        rintro ⟨behind, h⟩
        apply hc
        rw [← List.head?_drop, ← h]
        rfl
      rw [hfalse]
      exact reads_pure _

/-- Looking for a spelling compares it with what is ahead, character by character. -/
theorem reads_lookingAt (text spelling : List Char) :
    Reads host (lookingAt host spelling) [] text (spelling.isPrefixOf text) :=
  reads_compare text spelling 0

/-- As many characters are consumed as the spelling has. -/
theorem reads_advances (text rest : List Char) :
    Reads host (advances host text.length) text rest () := by
  induction text with
  | nil => exact reads_pure ()
  | cons c text ih => exact Reads.bind (reads_advance c (text ++ rest)) ih

/-- Each turn takes a character, or the closing delimiter. -/
theorem exists_reads_jsonTurns (host : Host S) (text before : List Char) :
    ∃ behind, text = (Lexeme.jsonTail text).1 ++ behind ∧
      Reads host (loop (jsonTurn host) before) (Lexeme.jsonTail text).1 behind
        (before ++ (Lexeme.jsonTail text).1, (Lexeme.jsonTail text).2) := by
  fun_induction Lexeme.jsonTail text generalizing before with
  | case1 =>
    refine ⟨[], rfl, .done ((reads_ahead 0 _).look ?_)⟩
    simp only [List.append_nil]
    exact reads_pure _
  | case2 rest =>
    refine ⟨rest, rfl, .done ((reads_ahead 0 _).look ?_)⟩
    refine (reads_lookingAt _ _).look ?_
    rw [if_pos (by simp)]
    refine Reads.bind (reads_advance '|' (['}'] ++ rest)) ?_
    change Reads host _ ['}'] rest (Sum.inr (before ++ (['|'] ++ ['}']), true))
    rw [← List.append_assoc]
    exact (reads_advance '}' rest).yield (reads_pure _)
  | case3 c rest hclose text complete heq ih =>
    rw [heq] at ih
    obtain ⟨behind, hbehind, hreads⟩ := ih (before ++ [c])
    have hturn : Reads host (jsonTurn host before) [c] (text ++ behind)
        (.inl (before ++ [c])) := by
      refine (reads_ahead 0 _).look ?_
      refine (reads_lookingAt _ _).look ?_
      rw [if_neg]
      · exact (reads_advance c _).yield (reads_pure _)
      · have hrest : rest = text ++ behind := hbehind
        rw [List.singleton_append, ← hrest, List.isPrefixOf_iff_prefix, List.cons_prefix_cons]
        -- the two halves of the delimiter would have ended the literal here
        rintro ⟨rfl, behind, rfl⟩
        exact hclose behind rfl rfl
    refine ⟨behind, by simpa using hbehind, ?_⟩
    have := hturn.again hreads
    simpa using this

end Cqasm.Machine.Scanner
