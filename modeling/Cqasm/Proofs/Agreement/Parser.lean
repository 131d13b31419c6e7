import Mathlib.Data.List.Forall2
import Mathlib.Data.Option.Basic
import Cqasm.Reader.Parser

/-!
# Agreement of two runs

A parser looks at nothing of a token but its kind, its text and its range, and at ranges only to
make other ranges of them. So where two rows of tokens are alike, reading one is like reading the
other: it succeeds or fails with the same complaint, what is read is alike, and the cursors end up
in front of tokens that are alike. When tokens are alike is left open (`Likeness`).

Agreement is a relation between two parsers, which need not be the same one: behind a first step the
two runs go on with what each of them has read (`Likeness.agree_bind`).
-/

set_option autoImplicit false

namespace Cqasm

/-- When tokens of a text in one file and tokens of a text in another are taken to be alike. Their
ranges become the same under two maps, and so do ranges that are made of such ranges. -/
structure Likeness (file file' : String) where
  like : Token → Token → Prop
  left : Location → Location
  right : Location → Location
  kind_eq : ∀ {t u}, like t u → t.kind = u.kind
  text_eq : ∀ {t u}, like t u → t.text = u.text
  location_eq : ∀ {t u}, like t u → left (t.location file) = right (u.location file')
  through_eq : ∀ {a b a' b'}, left a = right a' → left b = right b' →
    left (a.through b) = right (a'.through b')

namespace Likeness

variable {file file' : String} (k : Likeness file file')

/-- Ranges are alike if they become the same. -/
def Ranges (a b : Location) : Prop :=
  k.left a = k.right b

/-- Cursors are alike if the tokens in front of them are, and the token that was passed last. -/
structure Cursors (c d : Cursor) : Prop where
  previous : Option.Rel k.like c.previous d.previous
  tokens : List.Forall₂ k.like c.tokens d.tokens
  last : k.like c.last d.last

variable {α β γ δ τ : Type} {R : α → β → Prop} {S : γ → δ → Prop}

/-- Outcomes are alike if their values are, or their failures are the same. -/
inductive Outcomes (R : α → β → Prop) : Outcome α → Outcome β → Prop
  | ok {v : α} {w : β} {c d : Cursor} : R v w → k.Cursors c d → Outcomes R (.ok v c) (.ok w d)
  | failed {failure : Failure} {c d : Cursor} :
      k.Cursors c d → Outcomes R (.failed failure c) (.failed failure d)

/-- Two parsers agree if they have outcomes that are alike wherever they start alike. -/
def Agree (R : α → β → Prop) (p : Parser α) (q : Parser β) : Prop :=
  ∀ c d, k.Cursors c d → k.Outcomes R (p.run file c) (q.run file' d)

/-! ## Cursors -/

variable {k} {c d : Cursor}

/-- The end of a text stands for the token at hand when no token is left, in both runs. -/
theorem Cursors.current (h : k.Cursors c d) : k.like c.current d.current := by
  have htokens := h.tokens
  unfold Cursor.current
  generalize c.tokens = ts, d.tokens = us at htokens ⊢
  cases htokens with
  | nil => exact h.last
  | cons htoken _ => exact htoken

theorem Cursors.kind_eq (h : k.Cursors c d) : c.kind = d.kind :=
  k.kind_eq h.current

/-- Separators are not remembered as the last token passed, and what is a separator goes by the
kind. -/
theorem like_passed {previous previous' : Option Token} {t u : Token}
    (hprevious : Option.Rel k.like previous previous') (h : k.like t u) :
    Option.Rel k.like (Cursor.passed previous t) (Cursor.passed previous' u) := by
  unfold Cursor.passed
  rw [k.kind_eq h]
  split
  · exact hprevious
  · exact .some h

theorem Cursors.advance (h : k.Cursors c d) : k.Cursors c.advance d.advance := by
  obtain ⟨hprevious, htokens, hlast⟩ := h
  unfold Cursor.advance
  cases hc : c.tokens with
  | nil =>
    rw [hc, List.forall₂_nil_left_iff] at htokens
    rw [htokens]
    exact ⟨hprevious, by rw [hc, htokens]; exact .nil, hlast⟩
  | cons t ts =>
    rw [hc, List.forall₂_cons_left_iff] at htokens
    obtain ⟨u, us, htoken, htokens, hd⟩ := htokens
    rw [hd]
    exact ⟨like_passed hprevious htoken, htokens, hlast⟩

/-- Dropping tokens by their kind keeps rows alike. -/
theorem forall₂_dropWhile (p : Kind → Bool) {ts us : List Token}
    (h : List.Forall₂ k.like ts us) :
    List.Forall₂ k.like (ts.dropWhile (p ·.kind)) (us.dropWhile (p ·.kind)) := by
  induction h with
  | nil => exact .nil
  | @cons t u ts us htoken htokens ih =>
    rw [List.dropWhile_cons, List.dropWhile_cons, k.kind_eq htoken]
    split
    · exact ih
    · exact .cons htoken htokens

theorem Cursors.pastSeparators (h : k.Cursors c d) :
    k.Cursors c.pastSeparators d.pastSeparators :=
  ⟨h.previous, forall₂_dropWhile Kind.isSeparator h.tokens, h.last⟩

theorem Cursors.pastNewlines (h : k.Cursors c d) : k.Cursors c.pastNewlines d.pastNewlines :=
  ⟨h.previous, forall₂_dropWhile (fun kind => kind = .newline) h.tokens, h.last⟩

/-- A range that ends at the last token passed, or where it starts if none was. -/
theorem Cursors.rangeFrom (h : k.Cursors c d) {a b : Location} (hstart : k.Ranges a b) :
    k.Ranges (c.rangeFrom file a) (d.rangeFrom file' b) := by
  have hprevious := h.previous
  unfold Cursor.rangeFrom
  generalize c.previous = t?, d.previous = u? at hprevious ⊢
  cases hprevious with
  | none => exact hstart
  | some htoken => exact k.through_eq hstart (k.location_eq htoken)

/-- Skipping goes by kinds and braces alone. -/
theorem Cursors.skipStatement (h : k.Cursors c d) (opened : Nat) :
    k.Cursors (c.skipStatement opened) (d.skipStatement opened) := by
  have hskip {ts us : List Token} (htokens : List.Forall₂ k.like ts us)
      {previous previous' : Option Token} (hprevious : Option.Rel k.like previous previous')
      (opened : Nat) : k.Cursors (Cursor.skipStatement.skip c opened previous ts)
        (Cursor.skipStatement.skip d opened previous' us) := by
    induction htokens generalizing previous previous' opened with
    | nil => exact ⟨hprevious, .nil, h.last⟩
    | @cons t u ts us htoken htokens ih =>
      rw [Cursor.skipStatement.skip, Cursor.skipStatement.skip, k.kind_eq htoken]
      split
      · exact ⟨hprevious, .cons htoken htokens, h.last⟩
      · exact ih (like_passed hprevious htoken) _
  exact hskip h.tokens h.previous opened

/-! ## Sequences -/

theorem agree_pure {v : α} {w : β} (h : R v w) :
    k.Agree R (pure v : Parser α) (pure w : Parser β) :=
  fun _ _ hcursors => .ok h hcursors

/-- One thing after the other: from cursors that are alike again, and with whatever was read before
being alike. -/
theorem agree_bind {p : Parser α} {q : Parser β} {f : α → Parser γ} {g : β → Parser δ}
    (h : k.Agree R p q) (hrest : ∀ v w, R v w → k.Agree S (f v) (g w)) :
    k.Agree S (p >>= f) (q >>= g) := by
  intro c d hcursors
  have houtcomes := h c d hcursors
  rw [Parser.run_bind, Parser.run_bind]
  generalize p.run file c = outcome, q.run file' d = outcome' at houtcomes ⊢
  cases houtcomes with
  | ok hvalue hbehind => exact hrest _ _ hvalue _ _ hbehind
  | failed hbehind => exact .failed hbehind

/-! ## Single steps -/

theorem agree_look {f : String → Cursor → α} {g : String → Cursor → β}
    (h : ∀ c d, k.Cursors c d → R (f file c) (g file' d)) :
    k.Agree R (Parser.look f) (Parser.look g) :=
  fun c d hcursors => .ok (h c d hcursors) hcursors

theorem agree_current : k.Agree k.like Parser.current Parser.current :=
  agree_look fun _ _ h => h.current

theorem agree_here : k.Agree k.Ranges Parser.here Parser.here :=
  agree_look fun _ _ h => k.location_eq h.current

theorem agree_isAt (kind : Kind) : k.Agree (· = ·) (Parser.isAt kind) (Parser.isAt kind) :=
  agree_look fun _ _ h => by rw [h.kind_eq]

theorem agree_locationOf {t u : Token} (h : k.like t u) :
    k.Agree k.Ranges (Parser.locationOf t) (Parser.locationOf u) :=
  agree_look fun _ _ _ => k.location_eq h

theorem agree_rangeFrom {a b : Location} (h : k.Ranges a b) :
    k.Agree k.Ranges (Parser.rangeFrom a) (Parser.rangeFrom b) :=
  agree_look fun _ _ hcursors => hcursors.rangeFrom h

/-- A complaint is about the token at hand, which its range follows from. -/
theorem agree_fail (complaint : Complaint) :
    k.Agree R (Parser.fail complaint) (Parser.fail complaint) :=
  fun _ _ hcursors => .failed hcursors

theorem agree_advance : k.Agree (· = ·) Parser.advance Parser.advance :=
  fun _ _ hcursors => .ok rfl hcursors.advance

theorem agree_pastSeparators : k.Agree (· = ·) Parser.pastSeparators Parser.pastSeparators :=
  fun _ _ hcursors => .ok rfl hcursors.pastSeparators

theorem agree_pastNewlines : k.Agree (· = ·) Parser.pastNewlines Parser.pastNewlines :=
  fun _ _ hcursors => .ok rfl hcursors.pastNewlines

theorem agree_accept (kind : Kind) : k.Agree (· = ·) (Parser.accept kind) (Parser.accept kind) := by
  intro c d hcursors
  rw [Parser.run_accept, Parser.run_accept, hcursors.kind_eq]
  split
  · exact .ok rfl hcursors.advance
  · exact .ok rfl hcursors

/-- What was expected is told by the parser and not by the tokens, so complaints are the same. -/
theorem agree_expectOneOf (kinds : List Kind) (kind : Kind) :
    k.Agree k.like (Parser.expectOneOf kinds kind) (Parser.expectOneOf kinds kind) := by
  intro c d hcursors
  rw [Parser.run_expectOneOf, Parser.run_expectOneOf, hcursors.kind_eq]
  split
  · exact .ok hcursors.current hcursors.advance
  · exact .failed hcursors

theorem agree_expect (kind : Kind) : k.Agree k.like (Parser.expect kind) (Parser.expect kind) :=
  agree_expectOneOf [kind] kind

theorem agree_statementEnd : k.Agree (· = ·) Parser.statementEnd Parser.statementEnd := by
  apply agree_bind agree_current
  intro t u htoken
  rw [k.kind_eq htoken]
  split
  · exact agree_pure rfl
  · exact agree_fail _

/-- A failure inside of braces leaves one more open, in both runs. -/
theorem agree_insideBraces {p : Parser α} {q : Parser β} (h : k.Agree R p q) :
    k.Agree R (Parser.insideBraces p) (Parser.insideBraces q) := by
  intro c d hcursors
  have houtcomes := h c d hcursors
  unfold Parser.insideBraces
  dsimp only
  generalize p.run file c = outcome, q.run file' d = outcome' at houtcomes ⊢
  cases houtcomes with
  | ok hvalue hbehind => exact .ok hvalue hbehind
  | failed hbehind => exact .failed hbehind

/-- Whether a token was accepted is the same in both runs, and so is the way they go on. -/
theorem agree_accept_bind {kind : Kind} {f : Bool → Parser α} {g : Bool → Parser β}
    (h : ∀ accepted, k.Agree R (f accepted) (g accepted)) :
    k.Agree R (Parser.accept kind >>= f) (Parser.accept kind >>= g) := by
  apply agree_bind (agree_accept kind)
  rintro accepted _ rfl
  exact h accepted

/-- Passing a token, whatever it is. -/
theorem agree_advance_bind {f : Unit → Parser α} {g : Unit → Parser β}
    (h : k.Agree R (f ()) (g ())) :
    k.Agree R (Parser.advance >>= f) (Parser.advance >>= g) :=
  agree_bind agree_advance fun _ _ _ => h

/-! ## Repetition -/

/-- Values may be put together further without another look at the text. -/
theorem Outcomes.map {R' : α → β → Prop} {f : α → γ} {g : β → δ} {outcome : Outcome α}
    {outcome' : Outcome β} (h : k.Outcomes R' outcome outcome')
    (hvalue : ∀ v w, R' v w → S (f v) (g w)) :
    k.Outcomes S (outcome.map f) (outcome'.map g) := by
  cases h with
  | ok h hcursors => exact .ok (hvalue _ _ h) hcursors
  | failed hcursors => exact .failed hcursors

/-- Both runs take the same rounds, each at tokens that are alike. -/
theorem outcomes_runMany {starts : Kind → Option τ} {item : τ → Token → Parser α}
    {item' : τ → Token → Parser β}
    (h : ∀ tag t u, k.like t u → k.Agree R (item tag t) (item' tag u)) (c d : Cursor)
    (hcursors : k.Cursors c d) :
    k.Outcomes (List.Forall₂ R) (Parser.runMany starts item file c)
      (Parser.runMany starts item' file' d) := by
  fun_induction Parser.runMany starts item file c generalizing d with
  | case1 c htokens =>
    have hd := hcursors.tokens
    rw [htokens, List.forall₂_nil_left_iff] at hd
    rw [Parser.runMany_of_nil hd]
    exact .ok .nil hcursors
  | case2 c token tokens htokens hstart =>
    have hd := hcursors.tokens
    rw [htokens, List.forall₂_cons_left_iff] at hd
    obtain ⟨u, us, htoken, -, hd⟩ := hd
    rw [Parser.runMany_of_cons hd, ← k.kind_eq htoken, hstart]
    exact .ok .nil hcursors
  | case3 c token tokens htokens tag hstart failure behind hitem =>
    have hd := hcursors.tokens
    rw [htokens, List.forall₂_cons_left_iff] at hd
    obtain ⟨u, us, htoken, -, hd⟩ := hd
    have houtcomes := h tag token u htoken _ _ hcursors.advance
    rw [Parser.runMany_of_cons hd, ← k.kind_eq htoken, hstart]
    dsimp only
    rw [hitem] at houtcomes
    generalize (item' tag u).run file' d.advance = outcome at houtcomes ⊢
    cases houtcomes with
    | failed hbehind => exact .failed hbehind
  | case4 c token tokens htokens tag hstart value behind hitem ih =>
    have hd := hcursors.tokens
    rw [htokens, List.forall₂_cons_left_iff] at hd
    obtain ⟨u, us, htoken, -, hd⟩ := hd
    -- Items of the same tag are read behind tokens that are alike, so the induction goes on from
    -- cursors that are alike again.
    have houtcomes := h tag token u htoken _ _ hcursors.advance
    rw [Parser.runMany_of_cons hd, ← k.kind_eq htoken, hstart]
    dsimp only
    rw [hitem] at houtcomes
    generalize (item' tag u).run file' d.advance = outcome at houtcomes ⊢
    cases houtcomes with
    | ok hvalue hbehind => exact (ih _ hbehind).map fun _ _ hvalues => .cons hvalue hvalues

/-- A row of items is read alike if each item is. -/
theorem agree_many {starts : Kind → Option τ} {item : τ → Token → Parser α}
    {item' : τ → Token → Parser β}
    (h : ∀ tag t u, k.like t u → k.Agree R (item tag t) (item' tag u)) :
    k.Agree (List.Forall₂ R) (Parser.many starts item) (Parser.many starts item') :=
  outcomes_runMany h

theorem agree_manyAfter (kind : Kind) {item : Token → Parser α} {item' : Token → Parser β}
    (h : ∀ t u, k.like t u → k.Agree R (item t) (item' u)) :
    k.Agree (List.Forall₂ R) (Parser.manyAfter kind item) (Parser.manyAfter kind item') :=
  agree_many fun _ => h

/-- The first item and then the others, each behind its separator. -/
theorem agree_separatedBy (kind : Kind) {item : Parser α} {item' : Parser β}
    (h : k.Agree R item item') :
    k.Agree (List.Forall₂ R) (Parser.separatedBy kind item) (Parser.separatedBy kind item') := by
  apply agree_bind h
  intro first first' hfirst
  apply agree_bind (agree_manyAfter kind fun _ _ _ => h)
  intro rest rest' hrest
  exact agree_pure (.cons hfirst hrest)

end Likeness

end Cqasm
