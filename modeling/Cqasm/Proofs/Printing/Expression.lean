import Cqasm.Proofs.Grammar.Program
import Cqasm.Proofs.Printing.Printer

/-!
# Printed expressions are expressions of the grammar

Tokens with the words of an expression are that expression by the grammar, up to ranges, however the
tokens lie in the text (`Style.derives_expr`). A whole expression takes one level of nesting more
than what is inside its brackets, and an operand only takes it in parentheses.
-/

set_option autoImplicit false

namespace Cqasm

open Grammar Word

/-- Tokens with these words are a phrase for the given thing, up to what is erased of it. -/
def Spells {α : Type} (item : Phrase α) (erase : α → α) (words : List Word) (x : α) : Prop :=
  ∀ ts : List Token, ts.map Token.word = words → ∃ v, item ts v ∧ erase v = erase x

section

variable {α : Type} {item : Phrase α} {erase : α → α}

theorem Token.kind_of_word {token : Token} {w : Word} (h : token.word = w) :
    token.kind = w.kind := by
  rw [← h]
  rfl

theorem Token.text_of_word {token : Token} {w : Word} (h : token.word = w) :
    token.text = w.text := by
  rw [← h]
  rfl

section

variable {ts : List Token} {kind : Kind} {words : List Word}

/-- A token with the word of a mark is of the mark's kind. -/
theorem exists_mark (h : ts.map Token.word = mark kind :: words) :
    ∃ token rest, ts = token :: rest ∧ token.kind = kind ∧ rest.map Token.word = words := by
  obtain ⟨token, rest, rfl, htoken, hrest⟩ := List.map_eq_cons_iff.1 h
  exact ⟨token, rest, rfl, Token.kind_of_word htoken, hrest⟩

theorem exists_last_mark (h : ts.map Token.word = words ++ [mark kind]) :
    ∃ us token, ts = us ++ [token] ∧ us.map Token.word = words ∧ token.kind = kind := by
  obtain ⟨us, last, rfl, hus, hlast⟩ := List.map_eq_append_iff.1 h
  obtain ⟨token, rfl, htoken⟩ := List.map_eq_singleton_iff.1 hlast
  exact ⟨us, token, rfl, hus, Token.kind_of_word htoken⟩

/-- A token with the word of a name is that name. -/
theorem exists_name (file : String) {id : Identifier}
    (h : ts.map Token.word = name id.name :: words) :
    ∃ token rest id', ts = token :: rest ∧ IsName file [token] id' ∧
      id'.relocate .forget = id.relocate .forget ∧ rest.map Token.word = words := by
  obtain ⟨token, rest, rfl, htoken, hrest⟩ := List.map_eq_cons_iff.1 h
  refine ⟨token, rest, _, rfl, .mk (Token.kind_of_word htoken), ?_, hrest⟩
  rw [Token.text_of_word htoken, name, String.ofList_toList]
  rfl

end

/-! ## Repetition -/

variable {kind : Kind} {f : α → List Word} {x : α} {xs : List α} {words : List Word}

/-- By induction on the list: the words of one element come off the front. -/
theorem spells_many (h : ∀ x ∈ xs, Spells item erase (f x) x) :
    Spells (Many item) (List.map erase) (xs.flatMap f) xs := by
  induction xs with
  | nil =>
    intro ts hts
    obtain rfl := List.map_eq_nil_iff.1 hts
    exact ⟨[], .nil, rfl⟩
  | cons x xs ih =>
    obtain ⟨hx, hxs⟩ := List.forall_mem_cons.1 h
    intro ts hts
    rw [List.flatMap_cons] at hts
    obtain ⟨left, right, rfl, hleft, hright⟩ := List.map_eq_append_iff.1 hts
    obtain ⟨v, hv, hbare⟩ := hx left hleft
    obtain ⟨vs, hvs, hbares⟩ := ih hxs right hright
    refine ⟨v :: vs, .cons hv hvs, ?_⟩
    rw [List.map_cons, List.map_cons, hbare, hbares]

theorem spells_behind (h : Spells item erase words x) :
    Spells (Behind kind item) erase (mark kind :: words) x := by
  intro ts hts
  obtain ⟨token, rest, rfl, hkind, hrest⟩ := exists_mark hts
  obtain ⟨v, hv, hbare⟩ := h rest hrest
  exact ⟨v, .mk hkind hv, hbare⟩

theorem spells_separatedBy (hne : xs ≠ []) (h : ∀ x ∈ xs, Spells item erase (f x) x) :
    Spells (SeparatedBy kind item) (List.map erase) (separated kind (xs.map f)) xs := by
  cases xs with
  | nil => exact absurd rfl hne
  | cons x xs =>
    obtain ⟨hx, hxs⟩ := List.forall_mem_cons.1 h
    intro ts hts
    rw [List.map_cons, separated, List.flatMap_map] at hts
    obtain ⟨left, right, rfl, hleft, hright⟩ := List.map_eq_append_iff.1 hts
    obtain ⟨v, hv, hbare⟩ := hx left hleft
    obtain ⟨vs, hvs, hbares⟩ := spells_many (fun y hy => spells_behind (hxs y hy)) right hright
    refine ⟨v :: vs, .mk hv hvs, ?_⟩
    rw [List.map_cons, List.map_cons, hbare, hbares]

theorem spells_listed (h : ∀ x ∈ xs, Spells item erase (f x) x) :
    Spells (Listed item) (List.map erase) (separated .comma (xs.map f)) xs := by
  intro ts hts
  by_cases hne : xs = []
  · subst hne
    obtain rfl := List.map_eq_nil_iff.1 hts
    exact ⟨[], .nil, rfl⟩
  · obtain ⟨vs, hvs, hbares⟩ := spells_separatedBy hne h ts hts
    exact ⟨vs, .some hvs, hbares⟩

/-! ## Operands -/

theorem spells_name (file : String) (id : Identifier) :
    Spells (IsName file) (Identifier.relocate .forget) [name id.name] id := by
  intro ts hts
  obtain ⟨token, rest, id', rfl, hid, hbare, hrest⟩ := exists_name file hts
  obtain rfl := List.map_eq_nil_iff.1 hrest
  exact ⟨id', hid, hbare⟩

end

section

variable {sub : Phrase Expr} {file : String} {words : List Word} {e : Expr}

/-- No newline is printed around an element, though the grammar lets some stand there. -/
theorem spells_element (h : Spells sub Expr.bare words e) :
    Spells (IsElement sub) Expr.bare words e := by
  intro ts hts
  obtain ⟨v, hv, hbare⟩ := h ts hts
  have helement : IsElement sub ([] ++ ts ++ []) v :=
    .mk (by simp [Newlines]) hv (by simp [Newlines])
  rw [List.nil_append, List.append_nil] at helement
  exact ⟨v, helement, hbare⟩

theorem spells_parenthesised (h : Spells sub Expr.bare words e) :
    Spells (IsPrimary file sub) Expr.bare (parenthesised words) e := by
  intro ts hts
  obtain ⟨opening, rest, rfl, hopening, hrest⟩ := exists_mark hts
  obtain ⟨us, closing, rfl, hus, hclosing⟩ := exists_last_mark hrest
  obtain ⟨v, hv, hbare⟩ := h us hus
  refine ⟨_, .parenthesised hopening hv hclosing, ?_⟩
  rw [Expr.bare_withLocation, hbare]

/-! ## Layers -/

section Layers

variable {base : Phrase Expr} {levels : List (List (Kind × BinaryOperator))}

theorem isChain_foldr {ts : List Token} (h : base ts e) : levels.foldr IsChain base ts e := by
  induction levels with
  | nil => exact h
  | cons level levels ih => exact .operand ih

/-- An operator may stand at its own level, and from there on the expression is an operand. -/
theorem isChain_foldr_operator {level : List (Kind × BinaryOperator)} (hlevel : level ∈ levels)
    {ts us : List Token} {sign : Token} {operator : BinaryOperator} {lhs rhs : Expr}
    (hlhs : base ts lhs) (hsign : (sign.kind, operator) ∈ level) (hrhs : base us rhs) :
    levels.foldr IsChain base (ts ++ sign :: us)
      (.binary operator lhs rhs (lhs.location.through rhs.location)) := by
  induction levels with
  | nil => cases hlevel
  | cons first levels ih =>
    rcases List.mem_cons.1 hlevel with rfl | hlevel
    · exact .operator (.operand (isChain_foldr hlhs)) hsign (isChain_foldr hrhs)
    · exact .operand (ih hlevel)

end Layers

theorem isLayered_of_isPostfix {ts : List Token} (h : IsPostfix file sub ts e) :
    IsLayered file sub ts e :=
  isChain_foldr (.operand (.indexed h))

theorem spells_layered (h : Spells (IsPostfix file sub) Expr.bare words e) :
    Spells (IsLayered file sub) Expr.bare words e := by
  intro ts hts
  obtain ⟨v, hv, hbare⟩ := h ts hts
  exact ⟨v, isLayered_of_isPostfix hv, hbare⟩

theorem spells_unary (operator : UnaryOperator) (location : Location)
    (h : Spells (IsPostfix file sub) Expr.bare words e) :
    Spells (IsLayered file sub) Expr.bare (mark operator.kind :: words)
      (.unary operator e location) := by
  intro ts hts
  obtain ⟨sign, rest, rfl, hsign, hrest⟩ := exists_mark hts
  obtain ⟨v, hv, hbare⟩ := h rest hrest
  -- the sign is one of the three the grammar lists, whichever operator it is
  have hkind : (sign.kind, operator) ∈
      [(Kind.minus, UnaryOperator.negate), (.bang, .not), (.tilde, .complement)] := by
    rw [hsign]
    cases operator <;> simp [UnaryOperator.kind]
  refine ⟨_, isChain_foldr (.operand (.operator hkind (.indexed hv))), ?_⟩
  unfold Expr.bare at hbare ⊢
  rw [Expr.relocate, Expr.relocate, hbare]
  rfl

/-- Every binary operator but the power groups to the left, at one of the levels. -/
theorem exists_level {operator : BinaryOperator} (h : operator ≠ .power) :
    ∃ level ∈ leftLevels, (operator.kind, operator) ∈ level := by
  cases operator <;> first | exact absurd rfl h | simp [leftLevels, BinaryOperator.kind]

/-- An operator between two operands. The power has a rule of its own, below all levels. -/
theorem spells_binary (operator : BinaryOperator) (location : Location) {words' : List Word}
    {e' : Expr} (h : Spells (IsPostfix file sub) Expr.bare words e)
    (h' : Spells (IsPostfix file sub) Expr.bare words' e') :
    Spells (IsLayered file sub) Expr.bare (words ++ mark operator.kind :: words')
      (.binary operator e e' location) := by
  intro ts hts
  obtain ⟨left, rest, rfl, hleft, hrest⟩ := List.map_eq_append_iff.1 hts
  obtain ⟨sign, right, rfl, hkind, hright⟩ := exists_mark hrest
  obtain ⟨lhs, hlhs, hbare⟩ := h left hleft
  obtain ⟨rhs, hrhs, hbare'⟩ := h' right hright
  have hbinary : IsLayered file sub (left ++ sign :: right)
      (.binary operator lhs rhs (lhs.location.through rhs.location)) := by
    by_cases hpower : operator = .power
    · subst hpower
      exact isChain_foldr (.operator (.indexed hlhs) hkind (.operand (.indexed hrhs)))
    · obtain ⟨level, hlevel, hmem⟩ := exists_level hpower
      rw [← hkind] at hmem
      exact isChain_foldr_operator hlevel (.operand (.indexed hlhs)) hmem (.operand (.indexed hrhs))
  refine ⟨_, hbinary, ?_⟩
  unfold Expr.bare at hbare hbare' ⊢
  rw [Expr.relocate, Expr.relocate, hbare, hbare']
  rfl

end

/-! ## Expressions -/

namespace Style

variable {style : Style} {file : String}

/-- What is deepest is at least as deep as each. -/
theorem le_deepest {α : Type} (f : α → Nat) {x : α} {xs : List α} (h : x ∈ xs) :
    f x ≤ deepest (xs.map f) := by
  induction xs with
  | nil => cases h
  | cons y xs ih =>
    show f x ≤ max (f y) (deepest (xs.map f))
    rcases List.mem_cons.1 h with rfl | h
    · exact Nat.le_max_left ..
    · exact Nat.le_trans (ih h) (Nat.le_max_right ..)

/-- What is printed of an expression is the expression, however many more levels there may be inside
it. Unless it is put in parentheses as an operand, it needs none to be one. -/
def Derives (style : Style) (file : String) (e : Expr) : Prop :=
  ∀ n, style.inner e ≤ n →
    Spells (IsLayered file (IsExpression file n)) Expr.bare (style.expr e) e ∧
      (style.wraps e = false →
        Spells (IsPostfix file (IsExpression file n)) Expr.bare (style.expr e) e)

variable {e : Expr} {n : Nat}

theorem Derives.of_isPostfix
    (h : ∀ n, style.inner e ≤ n →
      Spells (IsPostfix file (IsExpression file n)) Expr.bare (style.expr e) e) :
    style.Derives file e :=
  fun n hn => ⟨spells_layered (h n hn), fun _ => h n hn⟩

/-- A whole expression takes a level of its own. -/
theorem Derives.expression (h : style.Derives file e) (hn : style.inner e + 1 ≤ n) :
    Spells (IsExpression file n) Expr.bare (style.expr e) e := by
  cases n with
  | zero => cases hn
  | succ n => exact (h n (Nat.le_of_succ_le_succ hn)).1

/-- An operand that is wrapped takes the level that its parentheses open. -/
theorem Derives.operand (h : style.Derives file e)
    (hn : style.inner e + (if style.wraps e then 1 else 0) ≤ n) :
    Spells (IsPostfix file (IsExpression file n)) Expr.bare
      (if style.wraps e then parenthesised (style.expr e) else style.expr e) e := by
  by_cases hwraps : style.wraps e
  · rw [if_pos hwraps] at hn ⊢
    have hprimary : Spells (IsPrimary file _) Expr.bare _ e :=
      spells_parenthesised (h.expression hn)
    intro ts hts
    obtain ⟨v, hv, hbare⟩ := hprimary ts hts
    exact ⟨v, .primary hv, hbare⟩
  · rw [if_neg hwraps] at hn ⊢
    exact (h n hn).2 (by simpa using hwraps)

/-- A token that stands for an expression by itself. -/
theorem derives_token {w : Word} (hwords : style.expr e = [w])
    (h : ∀ (sub : Phrase Expr) (token : Token), token.word = w →
      ∃ v, IsPrimary file sub [token] v ∧ v.bare = e.bare) : style.Derives file e := by
  apply Derives.of_isPostfix
  intro n hn ts hts
  rw [hwords] at hts
  obtain ⟨token, rfl, htoken⟩ := List.map_eq_singleton_iff.1 hts
  obtain ⟨v, hv, hbare⟩ := h _ token htoken
  exact ⟨v, .primary hv, hbare⟩

theorem spells_entry {sub : Phrase Expr} {entry : IndexEntry}
    (h : ∀ e ∈ entry.parts, Spells sub Expr.bare (style.expr e) e) :
    Spells (IsEntry sub) (IndexEntry.relocate .forget) (style.indexEntry entry) entry := by
  intro ts hts
  cases entry with
  | item e location =>
    rw [indexEntry] at hts
    obtain ⟨v, hv, hbare⟩ := h e List.mem_cons_self ts hts
    refine ⟨_, .item hv, ?_⟩
    unfold Expr.bare at hbare
    rw [IndexEntry.relocate, IndexEntry.relocate, hbare]
    rfl
  | range first last location =>
    rw [indexEntry] at hts
    obtain ⟨left, rest, rfl, hleft, hrest⟩ := List.map_eq_append_iff.1 hts
    obtain ⟨colon, right, rfl, hcolon, hright⟩ := exists_mark hrest
    obtain ⟨v, hv, hbare⟩ := h first List.mem_cons_self left hleft
    obtain ⟨v', hv', hbare'⟩ := h last (List.mem_cons_of_mem _ List.mem_cons_self) right hright
    refine ⟨_, .range hv hcolon hv', ?_⟩
    unfold Expr.bare at hbare hbare'
    rw [IndexEntry.relocate, IndexEntry.relocate, hbare, hbare']
    rfl

/-- An entry nests one level deeper than the expressions in it. -/
theorem inner_le_innerEntry {entry : IndexEntry} (he : e ∈ entry.parts) :
    style.inner e + 1 ≤ style.innerEntry entry := by
  cases entry with
  | item =>
    obtain rfl := List.mem_singleton.1 he
    rw [innerEntry]
  | range first last =>
    rw [innerEntry]
    rcases List.mem_cons.1 he with rfl | he
    · exact Nat.le_max_left ..
    · obtain rfl := List.mem_singleton.1 he
      exact Nat.le_max_right ..

theorem derives_matrix {rows : List (List Expr)} {location : Location} (hne : rows ≠ [])
    (hrows : ∀ row ∈ rows, row ≠ [])
    (h : ∀ row ∈ rows, ∀ e ∈ row, style.Derives file e) :
    style.Derives file (.matrix rows location) := by
  apply Derives.of_isPostfix
  intro n hn ts hts
  rw [inner] at hn
  -- An element is nested one level deeper than the matrix, however many others there are.
  have hrows : Spells (IsRows (IsExpression file n)) (List.map (List.map Expr.bare))
      (separated .semicolon (rows.map fun row => separated .comma (row.map style.expr))) rows := by
    apply spells_separatedBy hne
    intro row hrow
    apply spells_separatedBy (hrows row hrow)
    intro e he
    apply spells_element
    apply (h row hrow e he).expression
    calc style.inner e + 1
        ≤ deepest (row.map fun e => style.inner e + 1) := le_deepest (style.inner · + 1) he
      _ ≤ _ := le_deepest (fun row => deepest (row.map (style.inner · + 1))) hrow
      _ ≤ n := hn
  rw [expr] at hts
  obtain ⟨opening, rest, rfl, hopening, hrest⟩ := exists_mark hts
  obtain ⟨us, closing, rfl, hus, hclosing⟩ := exists_last_mark hrest
  obtain ⟨vs, hvs, hbares⟩ := hrows us hus
  refine ⟨_, .primary (.matrix hopening hvs hclosing), ?_⟩
  unfold Expr.bare at hbares ⊢
  rw [Expr.relocate, Expr.relocate]
  exact congrArg (Expr.matrix · default) hbares

theorem derives_call {function : Identifier} {args : List Expr} {location : Location}
    (h : ∀ e ∈ args, style.Derives file e) : style.Derives file (.call function args location) := by
  apply Derives.of_isPostfix
  intro n hn ts hts
  rw [inner] at hn
  have hargs : Spells (Listed (IsExpression file n)) (List.map Expr.bare)
      (separated .comma (args.map style.expr)) args := by
    apply spells_listed
    intro e he
    apply (h e he).expression
    exact Nat.le_trans (le_deepest (style.inner · + 1) he) hn
  rw [expr] at hts
  obtain ⟨token, rest, id, rfl, hid, hname, hrest⟩ := exists_name file hts
  obtain ⟨opening, rest, rfl, hopening, hrest⟩ := exists_mark hrest
  obtain ⟨us, closing, rfl, hus, hclosing⟩ := exists_last_mark hrest
  obtain ⟨vs, hvs, hbares⟩ := hargs us hus
  refine ⟨_, .primary (.call hid hopening hvs hclosing), ?_⟩
  unfold Expr.bare at hbares ⊢
  rw [Expr.relocate, Expr.relocate, hname]
  exact congrArg (Expr.call _ · default) hbares

theorem derives_index {base : Expr} {entries : List IndexEntry} {location : Location}
    (hne : entries ≠ []) (hbase : style.Derives file base)
    (h : ∀ entry ∈ entries, ∀ e ∈ entry.parts, style.Derives file e) :
    style.Derives file (.index base entries location) := by
  apply Derives.of_isPostfix
  intro n hn ts hts
  rw [inner] at hn
  -- The base stays on the level of the index, the entries are one level further in.
  have hbase := hbase.operand (Nat.le_trans (Nat.le_max_left ..) hn)
  have hentries : Spells (SeparatedBy .comma (IsEntry (IsExpression file n)))
      (List.map (IndexEntry.relocate .forget))
      (separated .comma (entries.map style.indexEntry)) entries := by
    apply spells_separatedBy hne
    intro entry hentry
    have hle := Nat.le_trans (le_deepest style.innerEntry hentry)
      (Nat.le_trans (Nat.le_max_right ..) hn)
    apply spells_entry
    intro e he
    apply (h entry hentry e he).expression
    exact Nat.le_trans (inner_le_innerEntry he) hle
  rw [expr] at hts
  obtain ⟨left, rest, rfl, hleft, hrest⟩ := List.map_eq_append_iff.1 hts
  obtain ⟨opening, rest, rfl, hopening, hrest⟩ := exists_mark hrest
  obtain ⟨us, closing, rfl, hus, hclosing⟩ := exists_last_mark hrest
  obtain ⟨v, hv, hbare⟩ := hbase left hleft
  obtain ⟨vs, hvs, hbares⟩ := hentries us hus
  refine ⟨_, .index hv hopening hvs hclosing, ?_⟩
  unfold Expr.bare at hbare ⊢
  rw [Expr.relocate, Expr.relocate, hbare]
  exact congrArg (Expr.index _ · default) hbares

/-- The words of a printable expression derive it, on its own level or on any deeper one. -/
theorem derives_expr (h : (Node.expr e).Everywhere Node.Printable) : style.Derives file e := by
  -- The induction follows the constructors. Only unary and binary operators are ever wrapped, so
  -- for everything else being an operand is no extra claim.
  induction e using Expr.induction with
  | integer value =>
    apply derives_token (by rw [expr])
    intro sub token htoken
    have hvalue : Literal.natValue token.text = value := by
      rw [Token.text_of_word htoken]
      exact natValue_toDigits value
    -- the value read back is in range because the printed one was
    refine ⟨_, .integer (Token.kind_of_word htoken) (by rw [hvalue]; exact h.here), ?_⟩
    unfold Expr.bare
    rw [Expr.relocate, Expr.relocate, hvalue]
    rfl
  | float => exact h.here.elim
  | string value =>
    apply derives_token (by rw [expr])
    intro sub token htoken
    refine ⟨_, .string (Token.kind_of_word htoken), ?_⟩
    unfold Expr.bare
    rw [Expr.relocate, Expr.relocate, Token.text_of_word htoken, stringValue_string style.escapes,
      String.ofList_toList]
    rfl
  | json value =>
    apply derives_token (by rw [expr])
    intro sub token htoken
    refine ⟨_, .json (Token.kind_of_word htoken), ?_⟩
    unfold Expr.bare
    rw [Expr.relocate, Expr.relocate, Token.text_of_word htoken, jsonValue_json,
      String.ofList_toList]
    rfl
  | identifier id =>
    apply derives_token (by rw [expr])
    intro sub token htoken
    obtain ⟨v, hv, hbare⟩ := spells_name file id [token] (by rw [← htoken]; rfl)
    refine ⟨_, .name hv, ?_⟩
    unfold Expr.bare
    rw [Expr.relocate, Expr.relocate, hbare]
  | matrix rows location ih =>
    apply derives_matrix h.here.1 h.here.2
    intro row hrow e he
    apply ih row hrow e he
    apply h.child
    rw [Node.children_matrix]
    exact List.mem_map_of_mem (List.mem_flatten_of_mem hrow he)
  | call function args location ih =>
    apply derives_call
    intro e he
    exact ih e he (h.child (by simp [Node.children_call, he]))
  | index base entries location ihbase ih =>
    apply derives_index h.here (ihbase (h.child (by simp [Node.children_index])))
    intro entry hentry e he
    have hchild := h.child (show Node.entry entry ∈ _ by simp [Node.children_index, hentry])
    exact ih entry hentry e he (hchild.child (by simp [Node.children_entry, he]))
  | unary operator operand location ih =>
    intro n hn
    rw [inner] at hn
    rw [expr]
    refine ⟨?_, fun hwraps => ?_⟩
    · exact spells_unary operator location ((ih (h.child List.mem_cons_self)).operand hn)
    · rw [style.wraps_unary] at hwraps
      cases hwraps
  | binary operator lhs rhs location ihl ihr =>
    intro n hn
    rw [inner] at hn
    rw [expr]
    refine ⟨?_, fun hwraps => ?_⟩
    · apply spells_binary operator location
      · exact (ihl (h.child List.mem_cons_self)).operand (Nat.le_trans (Nat.le_max_left ..) hn)
      · exact (ihr (h.child (List.mem_cons_of_mem _ List.mem_cons_self))).operand
          (Nat.le_trans (Nat.le_max_right ..) hn)
    · rw [style.wraps_binary] at hwraps
      cases hwraps
  | erroneous => exact h.here.elim

end Style

end Cqasm
