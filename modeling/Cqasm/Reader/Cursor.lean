import Cqasm.Token.Stream

/-!
# Cursors: how far the tokens have been read

A `Cursor` stands in front of a token. It also remembers the last token that was passed, separators
apart, because that is where the range of whatever has just been read ends. At the end of the text a
cursor stays where it is.

Whatever moves a cursor moves it forward past some row of tokens (`Cursor.Passes`), which settles
where it then stands. So the number of tokens in front of a cursor (`Cursor.size`) never grows, and
passing a token makes it smaller. Everything that reads tokens terminates by it.
-/

set_option autoImplicit false

namespace Cqasm

/-- A place between the tokens of a text. -/
structure Cursor where
  /-- The last token passed that is not a separator. -/
  previous : Option Token
  /-- The tokens still to come, the end apart. -/
  tokens : List Token
  /-- The token that stands at the end of the text. -/
  last : Token
  deriving DecidableEq, Repr, Inhabited

namespace Cursor

/-- The cursor in front of the first token of a stream. -/
def ofStream (stream : TokenStream) : Cursor :=
  { previous := none, tokens := stream.tokens, last := stream.last }

/-- The token the cursor stands in front of. -/
def current (c : Cursor) : Token :=
  c.tokens.headD c.last

/-- The kind of the token the cursor stands in front of. -/
def kind (c : Cursor) : Kind :=
  c.current.kind

/-- How many tokens are still to come. -/
def size (c : Cursor) : Nat :=
  c.tokens.length

/-- The last token passed once `token` has been, too. -/
def passed (previous : Option Token) (token : Token) : Option Token :=
  if token.kind.isSeparator then previous else some token

/-- Passes one token, if there is one. -/
def advance (c : Cursor) : Cursor :=
  match c.tokens with
  | [] => c
  | token :: tokens => { c with previous := passed c.previous token, tokens }

/-- Passes newlines and semicolons. -/
def pastSeparators (c : Cursor) : Cursor :=
  { c with tokens := c.tokens.dropWhile (·.kind.isSeparator) }

/-- Passes newlines. -/
def pastNewlines (c : Cursor) : Cursor :=
  { c with tokens := c.tokens.dropWhile (·.kind = .newline) }

/-- How many braces are open behind a token when `opened` of them are in front of it. A closing
brace without an open one changes nothing. -/
def bracesBehind (opened : Nat) (kind : Kind) : Nat :=
  match kind with
  | .leftBrace => opened + 1
  | .rightBrace => opened - 1
  | _ => opened

/-- Passes the rest of a broken statement: up to the next separator outside of braces, where
`opened` of them are open to begin with. -/
def skipStatement (opened : Nat) (c : Cursor) : Cursor :=
  skip opened c.previous c.tokens
where
  skip (opened : Nat) (previous : Option Token) : List Token → Cursor
    | [] => { c with previous, tokens := [] }
    | token :: tokens =>
      if opened = 0 && token.kind.isSeparator then
        { c with previous, tokens := token :: tokens }
      else skip (bracesBehind opened token.kind) (passed previous token) tokens

/-- The range from `start` up to the last token passed. -/
def rangeFrom (file : String) (start : Location) (c : Cursor) : Location :=
  match c.previous with
  | some token => start.through (token.location file)
  | none => start

/-! ## Passing tokens -/

/-- The cursor `behind` is what `c` becomes by passing `tokens`, one after the other. -/
structure Passes (c : Cursor) (tokens : List Token) (behind : Cursor) : Prop where
  tokens_eq : c.tokens = tokens ++ behind.tokens
  previous_eq : behind.previous = tokens.foldl passed c.previous
  last_eq : behind.last = c.last

theorem passes_nil (c : Cursor) : c.Passes [] c :=
  ⟨rfl, rfl, rfl⟩

theorem passes_advance {c : Cursor} {token : Token} {tokens : List Token}
    (h : c.tokens = token :: tokens) : c.Passes [token] c.advance := by
  unfold advance
  rw [h]
  exact ⟨h, rfl, rfl⟩

theorem Passes.trans {c middle behind : Cursor} {left right : List Token}
    (h : c.Passes left middle) (h' : middle.Passes right behind) :
    c.Passes (left ++ right) behind where
  tokens_eq := by rw [h.tokens_eq, h'.tokens_eq, List.append_assoc]
  previous_eq := by rw [h'.previous_eq, h.previous_eq, List.foldl_append]
  last_eq := h'.last_eq.trans h.last_eq

/-- At the end of the text nothing is passed. -/
theorem exists_passes_advance (c : Cursor) : ∃ tokens, c.Passes tokens c.advance := by
  cases h : c.tokens with
  | nil =>
    refine ⟨[], ?_⟩
    unfold advance
    rw [h]
    exact c.passes_nil
  | cons token tokens => exact ⟨[token], passes_advance h⟩

/-- Separators leave no trace in what a cursor remembers. -/
theorem foldl_passed_of_separators {tokens : List Token}
    (h : ∀ token ∈ tokens, token.kind.isSeparator) (previous : Option Token) :
    tokens.foldl passed previous = previous := by
  induction tokens with
  | nil => rfl
  | cons token tokens ih =>
    have hhead : passed previous token = previous := if_pos (h token List.mem_cons_self)
    rw [List.foldl_cons, hhead]
    exact ih fun t ht => h t (List.mem_cons_of_mem _ ht)

/-- Passing as many separators of some sort as there are. -/
theorem passes_dropWhile (c : Cursor) {p : Token → Bool}
    (h : ∀ token, p token → token.kind.isSeparator) :
    c.Passes (c.tokens.takeWhile p) { c with tokens := c.tokens.dropWhile p } where
  tokens_eq := List.takeWhile_append_dropWhile.symm
  previous_eq :=
    (foldl_passed_of_separators
      (fun token htoken => h token (List.all_eq_true.1 List.all_takeWhile token htoken)) _).symm
  last_eq := rfl

theorem passes_pastSeparators (c : Cursor) :
    c.Passes (c.tokens.takeWhile (·.kind.isSeparator)) c.pastSeparators :=
  c.passes_dropWhile fun _ h => h

theorem passes_pastNewlines (c : Cursor) :
    c.Passes (c.tokens.takeWhile (·.kind = .newline)) c.pastNewlines :=
  c.passes_dropWhile fun token h => by simp [of_decide_eq_true h, Kind.isSeparator]

/-- Skipping passes tokens from the front, whatever the depth of the braces. -/
theorem exists_passes_skip (c : Cursor) (opened : Nat) (previous : Option Token)
    (tokens : List Token) :
    ∃ skipped, Passes { c with previous, tokens } skipped
      (skipStatement.skip c opened previous tokens) := by
  induction tokens generalizing opened previous with
  | nil => exact ⟨[], passes_nil _⟩
  | cons token tokens ih =>
    unfold skipStatement.skip
    split
    · exact ⟨[], passes_nil _⟩
    · obtain ⟨skipped, h⟩ := ih (bracesBehind opened token.kind) (passed previous token)
      exact ⟨[token] ++ skipped, (passes_advance rfl).trans h⟩

theorem exists_passes_skipStatement (opened : Nat) (c : Cursor) :
    ∃ skipped, c.Passes skipped (c.skipStatement opened) :=
  c.exists_passes_skip opened c.previous c.tokens

/-! ## Size -/

theorem Passes.size_eq {c behind : Cursor} {tokens : List Token} (h : c.Passes tokens behind) :
    c.size = tokens.length + behind.size := by
  rw [size, h.tokens_eq, List.length_append, size]

theorem Passes.size_le {c behind : Cursor} {tokens : List Token} (h : c.Passes tokens behind) :
    behind.size ≤ c.size := by
  rw [h.size_eq]
  exact Nat.le_add_left ..

theorem size_advance_lt {c : Cursor} (h : c.tokens ≠ []) : c.advance.size < c.size := by
  unfold advance size
  split <;> simp_all

/-- Skipping never goes back. -/
theorem size_skipStatement_le (opened : Nat) (c : Cursor) :
    (c.skipStatement opened).size ≤ c.size :=
  let ⟨_, h⟩ := c.exists_passes_skipStatement opened
  h.size_le

/-- In front of a token that is no separator, with no brace open, a skip gets somewhere. -/
theorem size_skipStatement_lt {c : Cursor} {token : Token} {tokens : List Token}
    (h : c.tokens = token :: tokens) (hkind : token.kind.isSeparator = false) :
    (c.skipStatement 0).size < c.size := by
  obtain ⟨_, hskip⟩ :=
    c.exists_passes_skip (bracesBehind 0 token.kind) (passed c.previous token) tokens
  unfold skipStatement
  rw [h, skipStatement.skip, hkind, size, size, h]
  exact Nat.lt_succ_of_le hskip.size_le

end Cursor

end Cqasm
