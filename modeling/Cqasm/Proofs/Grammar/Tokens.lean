import Cqasm.Proofs.Grammar.Program
import Cqasm.Proofs.Lexical.Slice

/-!
# The tokens of an expression

An expression is made of tokens that are what they are wherever they stand (`portable_expression`),
and it ends in one that is no separator (`closes_expression`).
-/

set_option autoImplicit false

namespace Cqasm.Grammar

variable {α : Type} {phrase : Phrase α} {mark : Kind} {file : String} {sub : Phrase Expr}

/-! ## Kinds -/

/-- The tokens of a phrase are what they are wherever they stand. -/
def Portable (phrase : Phrase α) : Prop :=
  ∀ ⦃ts v⦄, phrase ts v → ∀ token ∈ ts, token.kind.isPortable

/-- A phrase is portable if all marks in it are. -/
theorem Portable.behind (hmark : mark.isPortable) (h : Portable phrase) :
    Portable (Behind mark phrase) := by
  rintro _ _ ⟨hkind, hv⟩
  exact List.forall_mem_cons.2 ⟨hkind ▸ hmark, h hv⟩

theorem Portable.many (h : Portable phrase) : Portable (Many phrase) := by
  intro ts vs hvs
  induction hvs with
  | nil => simp
  | cons hv _ ih => exact List.forall_mem_append.2 ⟨h hv, ih⟩

theorem Portable.separatedBy (hmark : mark.isPortable) (h : Portable phrase) :
    Portable (SeparatedBy mark phrase) := by
  rintro _ _ ⟨hv, hvs⟩
  exact List.forall_mem_append.2 ⟨h hv, (h.behind hmark).many hvs⟩

theorem Portable.listed (h : Portable phrase) : Portable (Listed phrase) := by
  intro ts vs hvs
  cases hvs with
  | nil => simp
  | some hvs => exact h.separatedBy rfl hvs

/-- Whether a token is portable is told by its kind. -/
theorem isPortable_of_eq {token : Token} {kind : Kind} (h : token.kind = kind)
    (hkind : kind.isPortable) : token.kind.isPortable :=
  h ▸ hkind

theorem portable_name : Portable (IsName file) := by
  rintro _ _ ⟨hkind⟩
  exact List.forall_mem_singleton.2 (isPortable_of_eq hkind rfl)

theorem portable_entry (hsub : Portable sub) : Portable (IsEntry sub) := by
  intro ts entry h
  cases h with
  | item he => exact hsub he
  | range hfirst hcolon hlast =>
    exact List.forall_mem_append.2
      ⟨hsub hfirst, List.forall_mem_cons.2 ⟨isPortable_of_eq hcolon rfl, hsub hlast⟩⟩

theorem portable_element (hsub : Portable sub) : Portable (IsElement sub) := by
  rintro _ _ ⟨hbefore, he, hbehind⟩
  have hnewlines {ts : List Token} (h : Newlines ts) : ∀ token ∈ ts, token.kind.isPortable :=
    fun token htoken => isPortable_of_eq (h token htoken) rfl
  exact List.forall_mem_append.2
    ⟨List.forall_mem_append.2 ⟨hnewlines hbefore, hsub he⟩, hnewlines hbehind⟩

/-- Brackets around what is portable, whatever kind of brackets they are. -/
theorem portable_bracketed {opening closing : Token} {kind kind' : Kind} {ts : List Token}
    (hopen : opening.kind = kind) (hts : ∀ token ∈ ts, token.kind.isPortable)
    (hclose : closing.kind = kind') (hkind : kind.isPortable) (hkind' : kind'.isPortable) :
    ∀ token ∈ opening :: (ts ++ [closing]), token.kind.isPortable := by
  rw [List.forall_mem_cons, List.forall_mem_append, List.forall_mem_singleton]
  exact ⟨hopen ▸ hkind, hts, hclose ▸ hkind'⟩

/-- Of the kinds that stand by themselves, each is a literal, a name or a bracket. -/
theorem portable_primary (hsub : Portable sub) : Portable (IsPrimary file sub) := by
  intro ts e h
  cases h with
  | integer hkind | float hkind | string hkind | json hkind =>
    exact List.forall_mem_singleton.2 (isPortable_of_eq hkind rfl)
  | name hname => exact portable_name hname
  | call hname hopen hargs hclose =>
    exact List.forall_mem_append.2
      ⟨portable_name hname, portable_bracketed hopen (hsub.listed hargs) hclose rfl rfl⟩
  | parenthesised hopen he hclose => exact portable_bracketed hopen (hsub he) hclose rfl rfl
  | matrix hopen hrows hclose =>
    have hinside := ((portable_element hsub).separatedBy rfl).separatedBy rfl hrows
    exact portable_bracketed hopen hinside hclose rfl rfl

theorem portable_postfix (hsub : Portable sub) : Portable (IsPostfix file sub) := by
  intro ts e h
  induction h with
  | primary he => exact portable_primary hsub he
  | index _ hopen hentries hclose ih =>
    have hinside := (portable_entry hsub).separatedBy rfl hentries
    exact List.forall_mem_append.2 ⟨ih, portable_bracketed hopen hinside hclose rfl rfl⟩

theorem portable_unary (hsub : Portable sub) : Portable (IsUnary file sub) := by
  have hsigns : ∀ entry ∈
      [(Kind.minus, UnaryOperator.negate), (.bang, .not), (.tilde, .complement)],
        entry.1.isPortable := by
    decide
  intro ts e h
  induction h with
  | indexed he => exact portable_postfix hsub he
  | operator hsign _ ih => exact List.forall_mem_cons.2 ⟨hsigns _ hsign, ih⟩

theorem portable_power (hsub : Portable sub) : Portable (IsPower file sub) := by
  intro ts e h
  induction h with
  | operand he => exact portable_unary hsub he
  | operator hlhs hsign _ ih =>
    exact List.forall_mem_append.2
      ⟨portable_unary hsub hlhs, List.forall_mem_cons.2 ⟨isPortable_of_eq hsign rfl, ih⟩⟩

/-- The operators of a chain are portable, by looking at the table of its level. -/
theorem portable_chain {operators : List (Kind × BinaryOperator)} {operand : Phrase Expr}
    (hsigns : ∀ entry ∈ operators, entry.1.isPortable) (h : Portable operand) :
    Portable (IsChain operators operand) := by
  intro ts e he
  induction he with
  | operand he => exact h he
  | operator _ hsign hrhs ih =>
    exact List.forall_mem_append.2 ⟨ih, List.forall_mem_cons.2 ⟨hsigns _ hsign, h hrhs⟩⟩

/-- All the tables are looked at here, once. -/
theorem portable_layered (hsub : Portable sub) : Portable (IsLayered file sub) := by
  have hsigns : ∀ level ∈ leftLevels, ∀ entry ∈ level, entry.1.isPortable := by decide
  unfold IsLayered
  generalize leftLevels = levels at hsigns ⊢
  induction levels with
  | nil => exact portable_power hsub
  | cons _ _ ih =>
    obtain ⟨hlevel, hlevels⟩ := List.forall_mem_cons.1 hsigns
    exact portable_chain hlevel (ih hlevels)

/-- The kinds that an expression is made of can all be carried elsewhere: none of them depends on
what stands in front of the expression. -/
theorem portable_expression (levels : Nat) : Portable (IsExpression file levels) := by
  induction levels with
  | zero => exact fun _ _ h => h.elim
  | succ levels ih => exact portable_layered ih

/-! ## The last token -/

/-- A row of tokens ends in one that is no separator. -/
def EndsSolid (ts : List Token) : Prop :=
  ∃ us last, ts = us ++ [last] ∧ last.kind.isSeparator = false

/-- What a phrase is made of ends in a token that is no separator. -/
def Closes (phrase : Phrase α) : Prop :=
  ∀ ⦃ts v⦄, phrase ts v → EndsSolid ts

/-- Only the end of a row matters. -/
theorem endsSolid_append {us : List Token} (ts : List Token) (h : EndsSolid us) :
    EndsSolid (ts ++ us) := by
  obtain ⟨vs, last, rfl, hlast⟩ := h
  exact ⟨ts ++ vs, last, (List.append_assoc ..).symm, hlast⟩

theorem endsSolid_cons {ts : List Token} (token : Token) (h : EndsSolid ts) :
    EndsSolid (token :: ts) :=
  endsSolid_append [token] h

theorem endsSolid_singleton {last : Token} {kind : Kind} (h : last.kind = kind)
    (hkind : kind.isSeparator = false) : EndsSolid [last] :=
  ⟨[], last, rfl, h ▸ hkind⟩

/-- Whatever is in brackets, the closing one is behind it. -/
theorem endsSolid_bracketed {opening closing : Token} {kind : Kind} (ts : List Token)
    (hclose : closing.kind = kind) (hkind : kind.isSeparator = false) :
    EndsSolid (opening :: (ts ++ [closing])) :=
  endsSolid_cons _ (endsSolid_append _ (endsSolid_singleton hclose hkind))

/-- What stands by itself ends with its own last token, no separator. -/
theorem closes_primary : Closes (IsPrimary file sub) := by
  intro ts e h
  cases h with
  | integer hkind | float hkind | string hkind | json hkind => exact endsSolid_singleton hkind rfl
  | name hname =>
    obtain ⟨hkind⟩ := hname
    exact endsSolid_singleton hkind rfl
  | call _ _ _ hclose => exact endsSolid_append _ (endsSolid_bracketed _ hclose rfl)
  | parenthesised _ _ hclose | matrix _ _ hclose => exact endsSolid_bracketed _ hclose rfl

theorem closes_postfix : Closes (IsPostfix file sub) := by
  intro ts e h
  cases h with
  | primary he => exact closes_primary he
  | index _ _ _ hclose => exact endsSolid_append _ (endsSolid_bracketed _ hclose rfl)

theorem closes_unary : Closes (IsUnary file sub) := by
  intro ts e h
  induction h with
  | indexed he => exact closes_postfix he
  | operator _ _ ih => exact endsSolid_cons _ ih

theorem closes_power : Closes (IsPower file sub) := by
  intro ts e h
  induction h with
  | operand he => exact closes_unary he
  | operator _ _ _ ih => exact endsSolid_append _ (endsSolid_cons _ ih)

/-- A chain ends as its last operand does. -/
theorem closes_chain {operators : List (Kind × BinaryOperator)} {operand : Phrase Expr}
    (h : Closes operand) : Closes (IsChain operators operand) := by
  intro ts e he
  cases he with
  | operand he => exact h he
  | operator _ _ hrhs => exact endsSolid_append _ (endsSolid_cons _ (h hrhs))

/-- No expression ends with a separator. -/
theorem closes_expression (levels : Nat) : Closes (IsExpression file levels) := by
  cases levels with
  | zero => exact fun _ _ h => h.elim
  | succ levels =>
    unfold IsExpression IsLayered
    induction leftLevels with
    | nil => exact closes_power
    | cons _ _ ih => exact closes_chain ih

end Cqasm.Grammar
