import Cqasm.Proofs.Grammar.Phrase
import Cqasm.Reader.Parser

/-!
# Recognition: parsers and phrases

`Parser.Recognises` says that a parser reads exactly the rows of a phrase: what it passes when it
succeeds is a row of the phrase that stands for the value it yields (`sound`), and in front of such
a row it succeeds with that value and passes the whole row (`complete`). A parser reads on for as
long as it can, so the second half needs to know what follows: a token of a kind at which it stops.

The rest of the file takes the single steps of a parser apart, for both halves, and then the
repetitions.
-/

set_option autoImplicit false

namespace Cqasm

open Grammar

/-- A statement may end at whatever separates it from the next one. -/
theorem Kind.endsStatement_of_isSeparator {k : Kind} (h : k.isSeparator) : k.endsStatement := by
  cases k <;> first | rfl | cases h

/-! ## Cursors -/

namespace Cursor

/-- The end of the text stands behind the last token, and nowhere else. -/
structure Ended (c : Cursor) : Prop where
  last_kind : c.last.kind = .eof
  kind_ne : ∀ token ∈ c.tokens, token.kind ≠ .eof

variable {c middle behind : Cursor} {token : Token} {ts us : List Token}

/-- The end of a text stays where it belongs while tokens are passed. -/
theorem Passes.ended (h : c.Passes ts behind) (hc : c.Ended) : behind.Ended where
  last_kind := by rw [h.last_eq, hc.last_kind]
  kind_ne token htoken := by
    apply hc.kind_ne
    rw [h.tokens_eq]
    exact List.mem_append_right _ htoken

/-- Where passing a row of tokens leads to is determined by the row. -/
theorem Passes.eq {behind' : Cursor} (h : c.Passes ts behind) (h' : c.Passes ts behind') :
    behind = behind' := by
  have htokens : behind.tokens = behind'.tokens :=
    List.append_cancel_left (h.tokens_eq.symm.trans h'.tokens_eq)
  have hprevious := h.previous_eq.trans h'.previous_eq.symm
  have hlast := h.last_eq.trans h'.last_eq.symm
  cases behind
  cases behind'
  cases htokens
  cases hprevious
  cases hlast
  rfl

theorem Passes.eq_of_nil (h : c.Passes [] behind) : behind = c :=
  h.eq c.passes_nil

theorem current_of_cons (h : c.tokens = token :: ts) : c.current = token := by
  rw [current, h]
  rfl

theorem Passes.current_eq (h : c.Passes (token :: ts) behind) : c.current = token :=
  current_of_cons h.tokens_eq

theorem Passes.kind_eq (h : c.Passes (token :: ts) behind) : c.kind = token.kind :=
  congrArg Token.kind h.current_eq

/-- The first token of a row is passed by a single step. -/
theorem passes_cons_iff :
    c.Passes (token :: ts) behind ↔ c.Passes [token] c.advance ∧ c.advance.Passes ts behind := by
  constructor
  · intro h
    have hstep : c.Passes [token] c.advance := passes_advance h.tokens_eq
    refine ⟨hstep, ?_, ?_, ?_⟩
    · exact List.tail_eq_of_cons_eq (hstep.tokens_eq.symm.trans h.tokens_eq)
    · rw [h.previous_eq, hstep.previous_eq]
      rfl
    · exact h.last_eq.trans hstep.last_eq.symm
  · rintro ⟨hstep, h⟩
    exact hstep.trans h

/-- A row of two parts is passed one part after the other. -/
theorem passes_append_iff :
    c.Passes (ts ++ us) behind ↔ ∃ middle, c.Passes ts middle ∧ middle.Passes us behind := by
  constructor
  · intro h
    refine ⟨⟨ts.foldl passed c.previous, us ++ behind.tokens, c.last⟩, ⟨?_, rfl, rfl⟩, ?_⟩
    · rw [h.tokens_eq, List.append_assoc]
    · exact ⟨rfl, by rw [h.previous_eq, List.foldl_append], h.last_eq⟩
  · rintro ⟨middle, h, h'⟩
    exact h.trans h'

/-- Passing one token more is a step behind the others. -/
theorem passes_concat (h : c.Passes (ts ++ [token]) behind) :
    ∃ middle, c.Passes ts middle ∧ middle.current = token ∧ behind = middle.advance := by
  obtain ⟨middle, hts, hlast⟩ := passes_append_iff.1 h
  exact ⟨middle, hts, hlast.current_eq, (passes_cons_iff.1 hlast).2.eq_of_nil⟩

/-- The tokens in front of a cursor may be passed, as many of them as one likes. -/
theorem exists_passes_of_append (h : c.tokens = ts ++ us) :
    ∃ behind, c.Passes ts behind ∧ behind.tokens = us :=
  ⟨{ c with previous := ts.foldl passed c.previous, tokens := us }, ⟨h, rfl, rfl⟩, rfl⟩

/-- The end is at hand exactly where no token is left. -/
theorem Ended.kind_eq_eof_iff (hc : c.Ended) : c.kind = .eof ↔ c.tokens = [] := by
  cases h : c.tokens with
  | nil =>
    have hlast : c.kind = .eof := by
      rw [Cursor.kind, current, h]
      exact hc.last_kind
    simp [hlast]
  | cons token tokens =>
    have hne : c.kind ≠ .eof := by
      rw [Cursor.kind, current_of_cons h]
      exact hc.kind_ne token (by simp [h])
    simp [hne]

/-- A token that is at hand, and not the end of the text, is passed by a step. -/
theorem passes_current {kind : Kind} (hc : c.Ended) (hkind : c.kind = kind) (hne : kind ≠ .eof) :
    c.Passes [c.current] c.advance := by
  cases h : c.tokens with
  | nil => exact absurd (hkind.symm.trans (hc.kind_eq_eof_iff.2 h)) hne
  | cons token tokens =>
    rw [current_of_cons h]
    exact passes_advance h

/-- What holds of the kind that a row starts with, and of the kind behind it in case it is empty,
holds of the kind at hand in front of it. -/
theorem Passes.kind_of_head (h : c.Passes ts behind) (first : Kind → Prop)
    (hhead : ts = [] ∨ ∃ token us, ts = token :: us ∧ first token.kind)
    (hbehind : first behind.kind) : first c.kind := by
  rcases hhead with rfl | ⟨token, us, rfl, hfirst⟩
  · rw [← h.eq_of_nil]
    exact hbehind
  · rw [h.kind_eq]
    exact hfirst

/-- A row of separators of some sort is passed as a whole where another token follows. -/
theorem Passes.dropWhile_eq {p : Token → Bool} (h : c.Passes ts behind)
    (hseparator : ∀ token, p token → token.kind.isSeparator) (hts : ∀ token ∈ ts, p token)
    (hbehind : p behind.current = false) :
    { c with tokens := c.tokens.dropWhile p } = behind := by
  have hdrop : c.tokens.dropWhile p = behind.tokens := by
    rw [h.tokens_eq, List.dropWhile_append_of_pos hts]
    cases hb : behind.tokens with
    | nil => rfl
    | cons token tokens =>
      rw [current_of_cons hb] at hbehind
      exact List.dropWhile_cons_of_neg (by simp [hbehind])
  have hpast : c.Passes ts { c with tokens := c.tokens.dropWhile p } := by
    refine ⟨?_, ?_, rfl⟩
    · exact h.tokens_eq.trans (congrArg (ts ++ ·) hdrop.symm)
    · exact (foldl_passed_of_separators (fun t ht => hseparator t (hts t ht)) _).symm
  exact hpast.eq h

/-- Newlines are passed all at once, up to the first token that is none. -/
theorem Passes.pastNewlines_eq (h : c.Passes ts behind) (hts : Newlines ts)
    (hkind : behind.kind ≠ .newline) : c.pastNewlines = behind :=
  h.dropWhile_eq (fun token htoken => by simp [of_decide_eq_true htoken, Kind.isSeparator])
    (fun token htoken => decide_eq_true (hts token htoken)) (decide_eq_false hkind)

theorem Passes.pastSeparators_eq (h : c.Passes ts behind) (hts : Separators ts)
    (hkind : behind.kind.isSeparator = false) : c.pastSeparators = behind :=
  h.dropWhile_eq (fun _ htoken => htoken) hts hkind

/-- What is dropped in one go are newlines. -/
theorem newlines_takeWhile (tokens : List Token) :
    Newlines (tokens.takeWhile (·.kind = .newline)) := by
  intro token htoken
  exact of_decide_eq_true (List.all_eq_true.1 List.all_takeWhile token htoken)

theorem separators_takeWhile (tokens : List Token) :
    Separators (tokens.takeWhile (·.kind.isSeparator)) := by
  intro token htoken
  exact List.all_eq_true.1 List.all_takeWhile token htoken

end Cursor

/-! ## Phrases -/

namespace Grammar

/-- The rows of a phrase are not empty, and all start with a token of a certain kind. -/
def Begins {α : Type} (phrase : Phrase α) (first : Kind → Prop) : Prop :=
  ∀ ⦃ts v⦄, phrase ts v → ∃ token us, ts = token :: us ∧ first token.kind

section

variable {α : Type} {item item' : Phrase α} {ts us : List Token} {v : α} {vs ws : List α}

/-- What an item starts with may be described more loosely. -/
theorem Begins.mono {first first' : Kind → Prop} (h : Begins item first)
    (himp : ∀ k, first k → first' k) : Begins item first' := by
  intro ts v hv
  obtain ⟨token, us, hts, hfirst⟩ := h hv
  exact ⟨token, us, hts, himp _ hfirst⟩

/-- An item starts in the same way whatever comes behind it. -/
theorem Begins.append {first : Kind → Prop} (h : Begins item first) (hv : item ts v)
    (us : List Token) : ∃ token ws, ts ++ us = token :: ws ∧ first token.kind := by
  obtain ⟨token, ws, rfl, hfirst⟩ := h hv
  exact ⟨token, ws ++ us, rfl, hfirst⟩

theorem Many.mono (h : Many item ts vs) (himp : ∀ us v, item us v → item' us v) :
    Many item' ts vs := by
  induction h with
  | nil => exact .nil
  | cons hv _ ih => exact .cons (himp _ _ hv) ih

/-- Two rows of items are one. -/
theorem Many.append (h : Many item ts vs) (h' : Many item us ws) :
    Many item (ts ++ us) (vs ++ ws) := by
  induction h with
  | nil => exact h'
  | cons hv _ ih =>
    rw [List.append_assoc]
    exact .cons hv ih

theorem Many.single (h : item ts v) : Many item ts [v] := by
  have := Many.cons h .nil
  rwa [List.append_nil] at this

/-- What holds of a value and is kept by every step holds of the value after many steps. -/
theorem Many.foldl {σ : Type} {step : Phrase σ} {grow : α → σ → α} {steps : List σ}
    (hgrow : ∀ {ts us a s}, item ts a → step us s → item (ts ++ us) (grow a s))
    (hsteps : Many step us steps) (hv : item ts v) :
    item (ts ++ us) (steps.foldl grow v) := by
  induction hsteps generalizing ts v with
  | nil => rwa [List.append_nil]
  | cons hs _ ih =>
    rw [← List.append_assoc]
    exact ih (hgrow hv hs)

/-- A row of items is empty or begins as an item does. -/
theorem Many.head {first : Kind → Prop} (h : Many item ts vs) (hitem : Begins item first) :
    ts = [] ∨ ∃ token us, ts = token :: us ∧ first token.kind := by
  cases h with
  | nil => exact .inl rfl
  | cons hv _ => exact .inr (hitem.append hv _)

theorem begins_behind {mark : Kind} : Begins (Behind mark item) (· = mark) := by
  rintro ts v ⟨hmark, -⟩
  exact ⟨_, _, rfl, hmark⟩

/-- One item more, in front of a separator. -/
theorem SeparatedBy.cons {mark : Kind} {token : Token} (hv : item ts v) (hmark : token.kind = mark)
    (h : SeparatedBy mark item us vs) : SeparatedBy mark item (ts ++ token :: us) (v :: vs) := by
  obtain ⟨hfirst, hrest⟩ := h
  exact .mk hv (Many.cons (.mk hmark hfirst) hrest)

/-- What starts an item starts a row of them. -/
theorem Begins.separatedBy {mark : Kind} {first : Kind → Prop} (h : Begins item first) :
    Begins (SeparatedBy mark item) first := by
  rintro _ _ ⟨hv, -⟩
  exact h.append hv _

end

end Grammar

/-! ## Ranges -/

namespace Grammar

/-- The last token that was passed and is no separator, or the one that was remembered before. -/
theorem foldl_passed (tokens : List Token) (previous : Option Token) :
    tokens.foldl Cursor.passed previous = (lastSolid? tokens).or previous := by
  induction tokens generalizing previous with
  | nil => rfl
  | cons token tokens ih =>
    rw [List.foldl_cons, ih, lastSolid?, lastSolid?]
    by_cases h : token.kind.isSeparator
    · simp [Cursor.passed, h]
    · simp [Cursor.passed, h, List.getLast?_cons]

/-- In a row that starts with a token of its own there is such a last one. -/
theorem lastSolid?_isSome {token : Token} (tokens : List Token)
    (h : token.kind.isSeparator = false) : (lastSolid? (token :: tokens)).isSome := by
  simp [lastSolid?, h]

/-- A range does not reach into separators behind its row. -/
theorem rangeOf_append_of_separators (file : String) (token : Token) (tokens : List Token)
    {seps : List Token} (h : Separators seps) :
    rangeOf file (token :: (tokens ++ seps)) = rangeOf file (token :: tokens) := by
  have hseps : seps.filter (fun token => !token.kind.isSeparator) = [] := by
    rw [List.filter_eq_nil_iff]
    intro sep hsep
    simp [h sep hsep]
  have hlast : lastSolid? (token :: (tokens ++ seps)) = lastSolid? (token :: tokens) := by
    rw [lastSolid?, ← List.cons_append, List.filter_append, hseps, List.append_nil, lastSolid?]
  unfold rangeOf
  rw [hlast]
  rfl

end Grammar

/-- The range from the token at hand up to the last token passed is that of the row passed, if it
starts with a token that is no separator. -/
theorem Cursor.Passes.rangeFrom_eq {c behind : Cursor} {token : Token} {tokens : List Token}
    (file : String) (h : c.Passes (token :: tokens) behind)
    (hkind : token.kind.isSeparator = false) :
    behind.rangeFrom file (c.current.location file) = rangeOf file (token :: tokens) := by
  obtain ⟨solid, hsolid⟩ := Option.isSome_iff_exists.1 (lastSolid?_isSome tokens hkind)
  have hprevious : behind.previous = some solid := by
    rw [h.previous_eq, foldl_passed, hsolid]
    rfl
  rw [Cursor.rangeFrom, hprevious, rangeOf, hsolid, h.current_eq]
  rfl

/-- The same when it is only known what the row begins with. -/
theorem Cursor.Passes.rangeFrom_of_begins {c behind : Cursor} {tokens : List Token}
    (file : String) (h : c.Passes tokens behind) (first : Kind → Prop)
    (hhead : ∃ token us, tokens = token :: us ∧ first token.kind)
    (hfirst : ∀ k, first k → k.isSeparator = false) :
    behind.rangeFrom file (c.current.location file) = rangeOf file tokens := by
  obtain ⟨token, us, rfl, hkind⟩ := hhead
  exact h.rangeFrom_eq file (hfirst _ hkind)

/-- A range may also start at a token in front of the row. -/
theorem Cursor.Passes.rangeFrom_behind {c behind : Cursor} {first : Token} {tokens : List Token}
    (file : String) (h : c.Passes tokens behind) (hsolid : (lastSolid? tokens).isSome) :
    behind.rangeFrom file (first.location file) = rangeOf file (first :: tokens) := by
  obtain ⟨solid, hsolid⟩ := Option.isSome_iff_exists.1 hsolid
  have hprevious : behind.previous = some solid := by
    rw [h.previous_eq, foldl_passed, hsolid]
    rfl
  have hlast : lastSolid? (first :: tokens) = some solid := by
    rw [lastSolid?] at hsolid ⊢
    by_cases hkind : first.kind.isSeparator
    · rw [List.filter_cons_of_neg (by simp [hkind]), hsolid]
    · rw [List.filter_cons_of_pos (by simp [hkind]), List.getLast?_cons, hsolid]
      rfl
  rw [Cursor.rangeFrom, hprevious, rangeOf, hlast]
  rfl

namespace Parser

variable {α β τ : Type} {file : String} {c behind : Cursor}

/-! ## Steps that succeed -/

/-- Two steps succeed if each of them does, the second from where the first has led to. All of the
following is a way to say so of steps that cannot fail. -/
theorem run_bind_eq_ok {p : Parser α} {f : α → Parser β} {v : β} :
    (p >>= f).run file c = .ok v behind ↔
      ∃ a middle, p.run file c = .ok a middle ∧ (f a).run file middle = .ok v behind := by
  rw [run_bind]
  cases hp : p.run file c with
  | ok a middle =>
    constructor
    · exact fun h => ⟨a, middle, rfl, h⟩
    · rintro ⟨_, _, h, hf⟩
      cases h
      exact hf
  | failed => simp

theorem run_pure_eq_ok {a v : α} :
    (pure a : Parser α).run file c = .ok v behind ↔ a = v ∧ c = behind := by
  simp [run_pure]

theorem run_here_bind (f : Location → Parser β) :
    (here >>= f).run file c = (f (c.current.location file)).run file c := rfl

theorem run_current_bind (f : Token → Parser β) :
    (current >>= f).run file c = (f c.current).run file c := rfl

theorem run_isAt_bind (kind : Kind) (f : Bool → Parser β) :
    (isAt kind >>= f).run file c = (f (c.kind = kind)).run file c := rfl

theorem run_locationOf_bind (token : Token) (f : Location → Parser β) :
    (locationOf token >>= f).run file c = (f (token.location file)).run file c := rfl

theorem run_rangeFrom_bind (start : Location) (f : Location → Parser β) :
    (rangeFrom start >>= f).run file c = (f (c.rangeFrom file start)).run file c := rfl

theorem run_advance_bind (f : Unit → Parser β) :
    (advance >>= f).run file c = (f ()).run file c.advance := rfl

theorem run_pastSeparators_bind (f : Unit → Parser β) :
    (pastSeparators >>= f).run file c = (f ()).run file c.pastSeparators := rfl

theorem run_pastNewlines_bind (f : Unit → Parser β) :
    (pastNewlines >>= f).run file c = (f ()).run file c.pastNewlines := rfl

/-- A token that may be there is passed if it is. -/
theorem run_accept_bind (kind : Kind) (f : Bool → Parser β) :
    (accept kind >>= f).run file c =
      if c.kind = kind then (f true).run file c.advance else (f false).run file c := by
  rw [run_bind, run_accept]
  by_cases h : c.kind = kind
  · simp only [if_pos h]
  · simp only [if_neg h]

/-- A token that must be there is read if it is at hand. -/
theorem run_expectOneOf_eq_ok {kinds : List Kind} {kind : Kind} {v : Token} :
    (expectOneOf kinds kind).run file c = .ok v behind ↔
      c.kind = kind ∧ v = c.current ∧ behind = c.advance := by
  rw [run_expectOneOf]
  split <;> simp_all [eq_comm]

/-- Passing a token of a given kind and going on with it. -/
theorem run_expectOneOf_bind_eq_ok {kinds : List Kind} {kind : Kind} {f : Token → Parser β}
    {v : β} :
    (expectOneOf kinds kind >>= f).run file c = .ok v behind ↔
      c.kind = kind ∧ (f c.current).run file c.advance = .ok v behind := by
  rw [run_bind_eq_ok]
  constructor
  · rintro ⟨a, middle, h, hf⟩
    obtain ⟨hkind, rfl, rfl⟩ := run_expectOneOf_eq_ok.1 h
    exact ⟨hkind, hf⟩
  · rintro ⟨hkind, hf⟩
    exact ⟨_, _, run_expectOneOf_eq_ok.2 ⟨hkind, rfl, rfl⟩, hf⟩

/-- When it is known to be at hand, there is nothing left to be decided. -/
theorem run_expectOneOf_bind {kinds : List Kind} {kind : Kind} {token : Token}
    (f : Token → Parser β) (hcurrent : c.current = token) (hkind : token.kind = kind) :
    (expectOneOf kinds kind >>= f).run file c = (f token).run file c.advance := by
  subst hcurrent
  rw [run_bind, run_expectOneOf, if_pos (show c.kind = kind from hkind)]

theorem run_bind_of_ok {p : Parser α} {a : α} {middle : Cursor} (f : α → Parser β)
    (h : p.run file c = .ok a middle) : (p >>= f).run file c = (f a).run file middle := by
  rw [run_bind, h]

/-! ## Recognition -/

/-- A parser that reads exactly the rows of a phrase, if what follows is of a kind that `stops`
it. -/
structure Recognises (p : Parser α) (file : String) (phrase : Phrase α) (stops : Kind → Prop) :
    Prop where
  sound : ∀ {c behind : Cursor} {v : α}, c.Ended → p.run file c = .ok v behind →
    ∃ ts, c.Passes ts behind ∧ phrase ts v
  complete : ∀ {c behind : Cursor} {ts : List Token} {v : α}, c.Passes ts behind → phrase ts v →
    stops behind.kind → p.run file c = .ok v behind

namespace Recognises

variable {p : Parser α} {phrase : Phrase α} {stops stops' : Kind → Prop}

/-- A parser may be promised to stop at less. -/
theorem mono (h : p.Recognises file phrase stops) (hstops : ∀ k, stops' k → stops k) :
    p.Recognises file phrase stops' where
  sound := h.sound
  complete hpasses hv hstop := h.complete hpasses hv (hstops _ hstop)

/-- Phrases of which the same rows are examples are recognised alike. -/
theorem congr {phrase' : Phrase α} (h : p.Recognises file phrase stops)
    (hphrase : ∀ ts v, phrase ts v ↔ phrase' ts v) : p.Recognises file phrase' stops where
  sound hc hrun := by
    obtain ⟨ts, hpasses, hv⟩ := h.sound hc hrun
    exact ⟨ts, hpasses, (hphrase ts _).1 hv⟩
  complete hpasses hv hstop := h.complete hpasses ((hphrase _ _).2 hv) hstop

end Recognises

/-! ## Repetition -/

/-- What `many` reads, when the tag that a token stands for goes into the value of the item behind
it. -/
inductive Tagged (starts : Kind → Option τ) (item : τ → Token → Phrase α) : Phrase α
  | mk {token : Token} {tag : τ} {ts : List Token} {v : α} :
      starts token.kind = some tag → item tag token ts v → Tagged starts item (token :: ts) v

/-- Each round of a loop starts with a token that starts it. -/
theorem begins_tagged {starts : Kind → Option τ} {item : τ → Token → Phrase α} :
    Begins (Tagged starts item) (starts · ≠ none) := by
  rintro ts v ⟨hstart, -⟩
  exact ⟨_, _, rfl, by simp [hstart]⟩

/-- In front of a token that starts no item, `many` reads nothing. -/
theorem runMany_of_none {starts : Kind → Option τ} {item : τ → Token → Parser α}
    (h : starts c.kind = none) : runMany starts item file c = .ok [] c := by
  cases htokens : c.tokens with
  | nil => exact runMany_of_nil htokens
  | cons token tokens =>
    rw [Cursor.kind, Cursor.current_of_cons htokens] at h
    rw [runMany_of_cons htokens, h]

/-- In front of a token that starts an item, `many` reads it and goes on behind it. -/
theorem runMany_of_ok {starts : Kind → Option τ} {item : τ → Token → Parser α} {token : Token}
    {tag : τ} {value : α} {middle : Cursor} (h : c.Passes [token] c.advance)
    (htag : starts token.kind = some tag)
    (hitem : (item tag token).run file c.advance = .ok value middle) :
    runMany starts item file c = (runMany starts item file middle).map (value :: ·) := by
  rw [runMany_of_cons h.tokens_eq, htag]
  dsimp only
  rw [hitem]

/-- Behind an item, `many` goes on at a token that starts another one, and stops elsewhere. So an
item has to stop at both. -/
theorem many_recognises {starts : Kind → Option τ} {item : τ → Token → Parser α}
    {phrase : τ → Token → Phrase α} {stops : Kind → Prop}
    (hitem : ∀ tag token, starts token.kind = some tag →
      (item tag token).Recognises file (phrase tag token) stops)
    (hstarts : ∀ k, starts k ≠ none → stops k) :
    (many starts item).Recognises file (Many (Tagged starts phrase))
      (fun k => stops k ∧ starts k = none) where
  sound {c behind v} hc hrun := by
    change runMany starts item file c = .ok v behind at hrun
    fun_induction runMany starts item file c generalizing v with
    | case1 c h =>
      cases hrun
      exact ⟨[], Cursor.passes_nil _, .nil⟩
    | case2 c token tokens h hnone =>
      cases hrun
      exact ⟨[], Cursor.passes_nil _, .nil⟩
    | case3 => cases hrun
    | case4 c token tokens h tag htag value middle hrunItem ih =>
      have hstep := Cursor.passes_advance h
      obtain ⟨ts, hts, hvalue⟩ := (hitem tag token htag).sound (hstep.ended hc) hrunItem
      cases hrest : runMany starts item file middle with
      | failed failure stuck =>
        rw [hrest] at hrun
        cases hrun
      | ok values last =>
        rw [hrest] at hrun
        cases hrun
        -- The item passes the tokens behind its first one, and the induction passes all later ones.
        obtain ⟨us, hus, hvalues⟩ := ih (hts.ended (hstep.ended hc)) hrest
        exact ⟨token :: ts ++ us, (hstep.trans hts).trans hus, .cons (.mk htag hvalue) hvalues⟩
  complete {c behind ts v} hpasses hv hstop := by
    change runMany starts item file c = .ok v behind
    induction hv generalizing c with
    | nil =>
      obtain rfl := hpasses.eq_of_nil
      exact runMany_of_none hstop.2
    | cons htagged hrest ih =>
      obtain @⟨token, tag, ts, value, htag, hvalue⟩ := htagged
      obtain ⟨hstep, hpasses⟩ := Cursor.passes_cons_iff.1 hpasses
      obtain ⟨middle, hts, hus⟩ := Cursor.passes_append_iff.1 hpasses
      -- An item has to stop where the next one starts, which is known by its first token.
      have hmiddle : stops middle.kind :=
        hus.kind_of_head stops (hrest.head (begins_tagged.mono hstarts)) hstop.1
      rw [runMany_of_ok hstep htag ((hitem tag token htag).complete hts hvalue hmiddle), ih hus]
      rfl

/-- Items behind a mark: the loop stops at any other token, and an item must stop at the mark. -/
theorem manyAfter_recognises {kind : Kind} {item : Parser α} {phrase : Phrase α}
    {stops : Kind → Prop} (hitem : item.Recognises file phrase stops) (hkind : stops kind) :
    (manyAfter kind fun _ => item).Recognises file (Many (Behind kind phrase))
      (fun k => stops k ∧ k ≠ kind) := by
  let starts : Kind → Option Unit := fun k => if k = kind then some () else none
  have hmany : (manyAfter kind fun _ => item).Recognises file
      (Many (Tagged starts fun _ _ => phrase)) (fun k => stops k ∧ starts k = none) := by
    refine many_recognises (fun _ _ _ => hitem) fun k hk => ?_
    have : k = kind := by simpa [starts] using hk
    rwa [this]
  refine (hmany.mono ?_).congr ?_
  · rintro k ⟨hstop, hne⟩
    exact ⟨hstop, if_neg hne⟩
  · intro ts vs
    constructor
    · intro h
      refine h.mono ?_
      rintro us v ⟨hstart, hv⟩
      exact .mk (by simpa [starts] using hstart) hv
    · intro h
      refine h.mono ?_
      rintro us v ⟨hmark, hv⟩
      exact .mk (if_pos hmark) hv

/-- Items with a separator between them, of which there is at least one. -/
theorem separatedBy_recognises {kind : Kind} {item : Parser α} {phrase : Phrase α}
    {stops : Kind → Prop} (hitem : item.Recognises file phrase stops) (hkind : stops kind) :
    (separatedBy kind item).Recognises file (SeparatedBy kind phrase)
      (fun k => stops k ∧ k ≠ kind) where
  sound hc hrun := by
    obtain ⟨first, middle, hfirst, hrun⟩ := run_bind_eq_ok.1 hrun
    obtain ⟨rest, last, hrest, hrun⟩ := run_bind_eq_ok.1 hrun
    obtain ⟨ts, hts, hfirst⟩ := hitem.sound hc hfirst
    obtain ⟨us, hus, hrest⟩ := (manyAfter_recognises hitem hkind).sound (hts.ended hc) hrest
    obtain ⟨rfl, rfl⟩ := run_pure_eq_ok.1 hrun
    exact ⟨ts ++ us, hts.trans hus, .mk hfirst hrest⟩
  complete hpasses hv hstop := by
    obtain ⟨hfirst, hrest⟩ := hv
    obtain ⟨middle, hts, hus⟩ := Cursor.passes_append_iff.1 hpasses
    have hmiddle : stops middle.kind := by
      refine hus.kind_of_head stops (hrest.head (begins_behind.mono ?_)) hstop.1
      rintro _ rfl
      exact hkind
    rw [separatedBy, run_bind_of_ok _ (hitem.complete hts hfirst hmiddle),
      run_bind_of_ok _ ((manyAfter_recognises hitem hkind).complete hus hrest hstop), run_pure]

end Parser

end Cqasm
