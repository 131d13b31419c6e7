import Cqasm.Token.Basic

/-!
# Phrases: rows of tokens and what they stand for

The grammar of cQASM is given without any reader of it. A `Phrase` says of a row of tokens whether
it is one of a kind, such as an expression or a statement, and which part of a tree it then stands
for. What is said here is what the productions have in common: repetition, separators, and the range
that a part of a tree has in the text.

None of it looks ahead or decides anything. A row may be split wherever the productions allow it,
and it belongs to a phrase when some way of splitting it works out.
-/

set_option autoImplicit false

namespace Cqasm.Grammar

/-- A class of rows of tokens, each together with what it stands for. -/
abbrev Phrase (α : Type) := List Token → α → Prop

variable {α : Type}

/-! ## Ranges -/

/-- The last token of a row that is not a separator. -/
def lastSolid? (tokens : List Token) : Option Token :=
  (tokens.filter fun token => !token.kind.isSeparator).getLast?

/-- The range of a row: from its first token to its last one that is not a separator. -/
def rangeOf (file : String) (tokens : List Token) : Location :=
  match tokens.head?, lastSolid? tokens with
  | some first, some last => (first.location file).through (last.location file)
  | _, _ => default

/-! ## Separators -/

/-- A row of newlines, perhaps none. -/
def Newlines (tokens : List Token) : Prop :=
  ∀ token ∈ tokens, token.kind = .newline

/-- A row of newlines and semicolons, perhaps none. -/
def Separators (tokens : List Token) : Prop :=
  ∀ token ∈ tokens, token.kind.isSeparator

/-- A row of newlines and semicolons, at least one. -/
def Separation (tokens : List Token) : Prop :=
  Separators tokens ∧ tokens ≠ []

/-! ## Repetition -/

/-- `item*` -/
inductive Many (item : Phrase α) : Phrase (List α)
  | nil : Many item [] []
  | cons {ts us : List Token} {v : α} {vs : List α} :
      item ts v → Many item us vs → Many item (ts ++ us) (v :: vs)

/-- `mark item` -/
inductive Behind (mark : Kind) (item : Phrase α) : Phrase α
  | mk {token : Token} {ts : List Token} {v : α} :
      token.kind = mark → item ts v → Behind mark item (token :: ts) v

/-- `item (mark item)*` -/
inductive SeparatedBy (mark : Kind) (item : Phrase α) : Phrase (List α)
  | mk {ts us : List Token} {v : α} {vs : List α} :
      item ts v → Many (Behind mark item) us vs → SeparatedBy mark item (ts ++ us) (v :: vs)

/-- `(item (',' item)*)?` -/
inductive Listed (item : Phrase α) : Phrase (List α)
  | nil : Listed item [] []
  | some {ts : List Token} {vs : List α} : SeparatedBy .comma item ts vs → Listed item ts vs

end Cqasm.Grammar
